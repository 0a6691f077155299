import ObjectGraph.Proofs.Compile.Collisions
import ObjectGraph.Proofs.Compile.FollowUp
import ObjectGraph.Proofs.Compile.Placement

/-!
# Arrays are left to queries of their own

The values of an array would multiply the solutions of the main query.  It therefore lists the
selected arrays and asks for none of their values: an array has no variable among those of the
selected or computed keys, and no triple that may be missing.  A condition that narrows an array
still brings its triple, with a variable that is hidden (`Fragment.Defers`).  A test for a value
has its triple in the group of its own `EXISTS`, which binds nothing outside and multiplies nothing.

The follow-up for an array is the counterpart.  It has one triple, between the fixed resource and
the one variable it selects, and nothing else (`Fragment.AsksOnly`).
-/

namespace ObjectGraph

open Sparql (Var Term Triple Pattern)

namespace Entity

variable {e : Entity} {options : CompileOptions} {key : String} {p : PropertySchema}

/-- Whether a condition computes a key. -/
def isComputed (e : Entity) (key : String) : Bool :=
  (e.condition? key).any Condition.isComputed

/-- Keywords are not put off. -/
theorem isDeferred_of_keyword (h : Schema.isKeyword key = true) :
    e.isDeferred options key = false := by
  simp [isDeferred, Schema.kindOf, h, Kind.isArray]

/-- Computed keys are not put off, as no property backs them. -/
theorem isDeferred_of_computed (h : e.isComputed key = true) :
    e.isDeferred options key = false := by
  simp only [isComputed] at h
  simp [isDeferred, h]

/-- Keys of no property are not put off. -/
theorem isDeferred_of_unknown (hkey : Schema.isKeyword key = false)
    (hunknown : e.schema.property? key = none) : e.isDeferred options key = false := by
  simp [isDeferred, Schema.kindOf_of_unknown hkey hunknown, Kind.isArray]

/-- A property is put off if it is an array, arrays are, and no test computes it. -/
theorem isDeferred_of_property (hkey : Schema.isKeyword key = false)
    (hproperty : e.schema.property? key = some p) :
    e.isDeferred options key = (p.kind.isArray && options.deferArrays && !e.isComputed key) := by
  simp [isDeferred, isComputed, Schema.kindOf_of_property hkey hproperty,
    Bool.and_comm options.deferArrays]

/-- A deferred key is in the schema, and neither identity nor type. -/
theorem property_of_isDeferred (h : e.isDeferred options key = true) :
    Schema.isKeyword key = false ∧ ∃ p, e.schema.property? key = some p := by
  cases hkey : Schema.isKeyword key with
  | true =>
      rw [isDeferred_of_keyword hkey] at h
      cases h
  | false =>
      cases hproperty : e.schema.property? key with
      | none =>
          rw [isDeferred_of_unknown hkey hproperty] at h
          cases h
      | some p => exact ⟨rfl, p, rfl⟩

end Entity

namespace Draft

variable {ns : Namespaces} {config : Config} {options : CompileOptions} {e : Entity}
  {key : String} {d d' : Draft}

/-- Nothing is put off before the keys have their turn. -/
theorem arrays_opening {subject : Term} {b : Allocator}
    (hstep : Types ns e (Draft.opening ns e subject b) d) : d.fragment.arrays = [] := by
  have hopen : (Draft.opening ns e subject b).fragment.arrays = [] := by
    unfold Draft.opening addIdentity
    split <;> rfl
  cases hstep <;> exact hopen

/-- A selected key is listed if it is deferred, and else no list changes. -/
theorem arrays_selects (hstep : Selects ns options e key d d') :
    d'.fragment.arrays = d.fragment.arrays ++ [key].filter (e.isDeferred options) := by
  have hpass : e.isDeferred options key = false →
      d.fragment.arrays = d.fragment.arrays ++ [key].filter (e.isDeferred options) := by
    intro h
    simp [h]
  cases hstep with
  | identity hid | pinned hid | type hid =>
      have hkey : Schema.isKeyword key = true := by simp [Schema.isKeyword, hid]
      exact hpass (Entity.isDeferred_of_keyword hkey)
  | computed _ hcomputed => exact hpass (Entity.isDeferred_of_computed hcomputed)
  | borrowed hkey hunknown | unknown hkey hunknown =>
      exact hpass (Entity.isDeferred_of_unknown hkey hunknown)
  | deferred hkey hproperty harray hdefer hcomputed =>
      have hdeferred : e.isDeferred options key = true := by
        simp [Entity.isDeferred_of_property hkey hproperty, Entity.isComputed, harray, hdefer,
          hcomputed]
      simp [hdeferred]
  | unmapped hkey hproperty _ hnow =>
      exact hpass (by simp [Entity.isDeferred_of_property hkey hproperty, hnow])
  | property hkey _ hproperty hnow =>
      exact hpass (by simp [Entity.isDeferred_of_property hkey hproperty, hnow])

/-- A condition puts nothing off. -/
theorem arrays_restricts {c : Condition} (hstep : Restricts ns config e key d c d') :
    d'.fragment.arrays = d.fragment.arrays := by
  cases hstep <;> rfl

/-- Only computed keys have a variable and a triple of a computed one. -/
structure Computes (config : Config) (e : Entity) (f : Fragment) : Prop where
  vars : ∀ key ∈ f.bindVars.keys, e.isComputed key = true
  template : ∀ t ∈ f.bindTemplate, ∃ key x, e.isComputed key = true ∧
    t = ⟨f.subject, .iri (config.localIri key), .var x⟩

/-- At the start nothing is computed. -/
theorem computes_opening (subject : Term) (b : Allocator) :
    Computes config e (Draft.opening ns e subject b).fragment := by
  unfold Draft.opening addIdentity
  split <;> exact ⟨List.forall_mem_nil _, List.forall_mem_nil _⟩

/-- A condition computes at most its own key. -/
theorem Computes.restricts (h : Computes config e d.fragment) {c : Condition}
    (hown : e.condition? key = some c) (hstep : Restricts ns config e key d c d') :
    Computes config e d'.fragment := by
  cases hstep with
  | keyword | selected | unmapped => exact h
  | existence | hidden => exact ⟨h.vars, h.template⟩
  | computed =>
      have hcomputed : e.isComputed key = true := by
        simp [Entity.isComputed, hown, Condition.isComputed]
      refine ⟨?_, ?_⟩
      · intro k hk
        rcases KeyVars.mem_keys_insert hk with hold | rfl
        · exact h.vars k hold
        · exact hcomputed
      · intro t ht
        rcases List.mem_append.mp ht with hold | hnew
        · exact h.template t hold
        · exact ⟨key, _, hcomputed, List.mem_singleton.mp hnew⟩

end Draft

/-- What a fragment has to do with the deferred keys of its entity: it lists those selected, and
has neither a variable nor a triple for them, other than where a condition narrows one. -/
structure Fragment.Defers (ns : Namespaces) (config : Config) (e : Entity) (f : Fragment) :
    Prop where
  /-- They are listed in the order of the request. -/
  arrays : f.arrays = e.selectedKeys.filter (e.isDeferred {})
  unheld : ∀ key ∈ f.props.keys ++ f.bindVars.keys, e.isDeferred {} key = false
  /-- What is selected stands for a key that is not deferred. -/
  projection : ∀ x ∈ f.projection, ∃ key, e.isDeferred {} key = false ∧
    (key, x) ∈ f.props.entries ++ f.bindVars.entries
  /-- What may be missing is the triple of a key whose values are fetched. -/
  optional : ∀ t ∈ f.optional, ∃ key m x, e.isDeferred {} key = false ∧
    e.mapping? ns key = some m ∧ t = m.triple f.subject (.var x)
  /-- What must be there says the type, belongs to a key whose values are fetched, or narrows. -/
  mandatory : ∀ t ∈ f.mandatory, Draft.Required ns {} e f t
  /-- What stands for a computed key is none of the triples of an array. -/
  computed : ∀ t ∈ f.bindTemplate, ∃ key x, e.isDeferred {} key = false ∧
    t = ⟨f.subject, .iri (config.localIri key), .var x⟩
  /-- A triple with a property that only deferred keys have narrows one of them, must be there,
  and hides its variable. -/
  triple : ∀ m x, (∀ key, e.mapping? ns key = some m → e.isDeferred {} key = true) →
    f.subject ≠ .var x → f.typeVar ≠ some x →
    m.triple f.subject (.var x) ∈ f.mandatory ++ f.optional →
    m.triple f.subject (.var x) ∈ f.mandatory ∧ m.triple f.subject (.var x) ∉ f.optional ∧
      x ∈ f.hidden.vars ∧ ∃ key, e.mapping? ns key = some m ∧
        (e.condition? key).any Condition.narrows = true
  narrowed : ∀ key m, e.isDeferred {} key = true → e.mapping? ns key = some m →
    (e.condition? key).any Condition.narrows = true →
    ∃ x ∈ f.hidden.vars, m.triple f.subject (.var x) ∈ f.mandatory

/-- A fragment that asks for the values of one property of one resource. -/
structure Fragment.AsksOnly (f : Fragment) (resource : Term) (m : Mapping) (x : Var) : Prop where
  subject : f.subject = resource
  projection : f.projection = [x]
  mandatory : f.mandatory = [m.triple resource (.var x)]
  optional : f.optional = []
  filters : f.filters = []
  binds : f.binds = []
  untyped : f.typeVar = none
  arrays : f.arrays = []

namespace Entity

variable {ns : Namespaces} {config : Config} {options : CompileOptions} {e : Entity}
  {a a' : Allocator} {f : Fragment}

/-- A fragment lists the selected keys that are deferred, in their order. -/
theorem compile_arrays (h : e.compile ns config options a = .ok (f, a')) :
    f.arrays = e.selectedKeys.filter (e.isDeferred options) := by
  obtain ⟨d, hd, rfl, -⟩ := compile_stages
    (fun selected d => d.fragment.arrays = selected.filter (e.isDeferred options))
    (fun _ d => d.fragment.arrays = e.selectedKeys.filter (e.isDeferred options))
    (fun _ _ _ _ hstep => Draft.arrays_opening hstep)
    (fun selected key _ d d' hd hstep => by
      rw [Draft.arrays_selects hstep, hd, List.filter_append])
    (fun _ hd => hd)
    (fun _ _ _ _ _ _ hd hstep => (Draft.arrays_restricts hstep).trans hd)
    h
  exact hd

/-- What an entity computes are the tests of its conditions. -/
theorem compile_computes (h : e.compile ns config options a = .ok (f, a'))
    (hconditions : e.conditions.keys.Nodup) : Draft.Computes config e f := by
  obtain ⟨d, hd, rfl, -⟩ := compile_draft (fun d => Draft.Computes config e d.fragment)
    (fun subject b _ => Draft.computes_opening subject b)
    (fun _ _ hd hstep => by cases hstep <;> exact ⟨hd.vars, hd.template⟩)
    (fun _ _ _ _ hd hstep => by cases hstep <;> exact ⟨hd.vars, hd.template⟩)
    (fun _ hentry _ _ hd hstep => hd.restricts (Assoc.get?_of_mem hconditions hentry) hstep)
    h
  exact ⟨hd.vars, hd.template⟩

/-- The main query leaves the arrays of an entity out. -/
theorem compile_defers (h : e.compile ns config {} a = .ok (f, a'))
    (hconditions : e.conditions.keys.Nodup) : f.Defers ns config e := by
  have hcomputes := compile_computes h hconditions
  have hplaced := compile_placed h hconditions
  -- a key with a variable is selected and fetched, or a word of its own, or computed
  have hshown : ∀ entry ∈ f.props.entries ++ f.bindVars.entries,
      e.isDeferred {} entry.1 = false := by
    intro entry hentry
    rcases List.mem_append.mp hentry with hprop | hcomputed
    · cases hkey : Schema.isKeyword entry.1 with
      | true => exact isDeferred_of_keyword hkey
      | false => exact (hplaced.props entry hprop hkey).2.1
    · exact isDeferred_of_computed (hcomputes.vars _ (List.mem_map_of_mem hcomputed))
  constructor
  case arrays => exact compile_arrays h
  case unheld =>
    intro key hkey
    unfold KeyVars.keys at hkey
    rw [← List.map_append] at hkey
    obtain ⟨entry, hentry, rfl⟩ := List.mem_map.mp hkey
    exact hshown entry hentry
  case projection =>
    intro x hx
    unfold Fragment.projection KeyVars.vars at hx
    rw [← List.map_append] at hx
    obtain ⟨entry, hentry, rfl⟩ := List.mem_map.mp hx
    exact ⟨entry.1, hshown entry hentry, hentry⟩
  case optional =>
    intro t ht
    obtain ⟨key, m, x, hfetched, -, rfl⟩ := hplaced.optional t ht
    exact ⟨key, m, x, hfetched.undeferred, hfetched.mapping, rfl⟩
  case mandatory => exact hplaced.mandatory
  case computed =>
    intro t ht
    obtain ⟨key, x, hcomputed, rfl⟩ := hcomputes.template t ht
    exact ⟨key, x, isDeferred_of_computed hcomputed, rfl⟩
  case triple =>
    intro m x hdeferred hsubject htype htriple
    have hunfetched : ∀ key, ¬ e.Fetches ns {} key m := by
      intro key hfetched
      have hundeferred := hfetched.undeferred
      rw [hdeferred key hfetched.mapping] at hundeferred
      cases hundeferred
    have hlast : m.triple f.subject (.var x) ∉ f.optional := by
      intro hoptional
      obtain ⟨key, m', y, hfetched, -, heq⟩ := hplaced.optional _ hoptional
      obtain rfl := Mapping.eq_of_triple_eq hsubject heq
      exact hunfetched key hfetched
    have hfirst := (List.mem_append.mp htriple).resolve_right hlast
    obtain ⟨key, hmapping, hsource⟩ :=
      source_of_required hconditions hsubject htype (hplaced.mandatory _ hfirst)
    rcases hsource with ⟨hfetched, -⟩ | ⟨hnarrowed, hhidden⟩
    · exact (hunfetched key hfetched).elim
    · exact ⟨hfirst, hlast, hhidden, key, hmapping, hnarrowed⟩
  case narrowed =>
    intro key m hdeferred hmapping hnarrowed
    have hkey := (property_of_isDeferred hdeferred).1
    have hdone : key ∈ e.conditions.keys := by
      cases hc : e.condition? key with
      | none => simp [hc] at hnarrowed
      | some c => exact List.mem_map_of_mem (mem_of_condition? hc)
    exact hplaced.narrowed key hdone m ⟨hkey, .inr hdeferred, hnarrowed, hmapping⟩

end Entity

namespace FollowUp

variable {ns : Namespaces} {config : Config} {parent : Entity} {key : String} {m : Mapping}

/-- The fragment of a follow-up: one triple, and its variable under the key. -/
def fragmentFor (ns : Namespaces) (parent : Entity) (key id : String) (m : Mapping) (x : Var) :
    Fragment where
  index := 0
  subject := .iri (ns.expand id)
  selected := [key]
  mandatory := [m.triple (.iri (ns.expand id)) (.var x)]
  props := KeyVars.empty.insert key x
  service := parent.service.map ns.expand

/-- A follow-up knows the property that it asks for. -/
theorem property?_schema {s : Schema} {p : PropertySchema} (hproperty : s.property? key = some p) :
    (schema s key).property? key = some p := by
  unfold Schema.property? schema
  dsimp only
  rw [hproperty]
  simp [Assoc.get?_insert]

/-- The follow-up for a key with a predicate has that fragment. -/
theorem compile_entityFor {p : PropertySchema} (hkey : Schema.isKeyword key = false)
    (hproperty : parent.schema.property? key = some p)
    (hmapping : parent.mapping? ns key = some m) (id : String) (a : Allocator) :
    (entityFor parent key id).compile ns config { deferArrays := false } a =
      .ok (fragmentFor ns parent key id m (a.join (key ++ toString 0)).1,
        (a.join (key ++ toString 0)).2) := by
  obtain ⟨hid, htype⟩ : key ≠ "@id" ∧ key ≠ "@type" := by simpa [Schema.isKeyword] using hkey
  have hcondition : (entityFor parent key id).condition? key = none := by
    simp [entityFor, Entity.condition?, Assoc.get?, Ne.symm hid]
  have hown : (entityFor parent key id).schema.property? key = some p :=
    property?_schema hproperty
  have hsame : (entityFor parent key id).mapping? ns key = some m := hmapping
  have hrequired : (entityFor parent key id).schema.isRequired key = true := by
    simp [entityFor, schema, Schema.isRequired]
  have hstep : ∀ d, Draft.addSelected ns { deferArrays := false } (entityFor parent key id) d key =
      Draft.addProperty ns (entityFor parent key id) key m d := by
    intro d
    simp [Draft.addSelected, hid, htype, hcondition, hown, hsame]
  have hsubject : (entityFor parent key id).subjectTerm ns a = .ok (.iri (ns.expand id), a) :=
    Entity.subjectTerm_of_pin (pin?_entityFor ns parent key id) a
  have hselect : (entityFor parent key id).selectedKeys = [key] := rfl
  unfold Entity.compile
  rw [hsubject, hselect]
  -- the condition on the identity fixes the subject, and is passed over among the conditions
  simp only [bind, Except.bind, List.foldl, hstep]
  simp only [Draft.addProperty, Draft.varFor, hcondition, hrequired]
  rfl

/-- The fragment of a follow-up asks for one property of one subject. -/
theorem asksOnly_fragmentFor (ns : Namespaces) (parent : Entity) (key id : String) (m : Mapping)
    (x : Var) : (fragmentFor ns parent key id m x).AsksOnly (.iri (ns.expand id)) m x :=
  ⟨rfl, rfl, rfl, rfl, rfl, rfl, rfl, rfl⟩

/-- A group that holds one triple, in place or at a service. -/
def IsSole (body : List Pattern) (t : Triple) : Prop :=
  body = [.triples [t]] ∨ ∃ endpoint, body = [.service endpoint false [.triples [t]]]

/-- The body of a follow-up is the one pattern of its property. -/
theorem isSole_mergePatterns (ns : Namespaces) (parent : Entity) (key id : String) (m : Mapping)
    (x : Var) :
    IsSole (Collection.mergePatterns [fragmentFor ns parent key id m x])
      (m.triple (.iri (ns.expand id)) (.var x)) := by
  cases hservice : parent.service with
  | none =>
      refine .inl ?_
      simp [Collection.mergePatterns, fragmentFor, hservice, Collection.servicePattern?,
        Fragment.optionalPatterns, Fragment.filterPatterns, Fragment.bindPatterns]
  | some endpoint =>
      refine .inr ⟨ns.expand endpoint, ?_⟩
      simp [Collection.mergePatterns, fragmentFor, hservice, Collection.servicePattern?,
        Fragment.patterns, Fragment.optionalPatterns, Fragment.filterPatterns,
        Fragment.bindPatterns]

/-- A follow-up that asks for the values of one property of one resource: what it selects is the
one variable of its one triple. -/
structure AsksOnly (u : FollowUp) (resource : Term) (m : Mapping) (x : Var) : Prop where
  part : ∃ part, u.plan.parts = [part] ∧ part.fragment.AsksOnly resource m x
  projection : u.plan.query.projection = some [x]
  body : IsSole u.plan.query.body (m.triple resource (.var x))

/-- The follow-up for a deferred key with a predicate has one part, by whose one variable its
answers are read, and asks for the values of the key and nothing else. -/
theorem compile_deferred (config : Config) (hdeferred : parent.isDeferred {} key = true)
    (hmapping : parent.mapping? ns key = some m) (id : String) :
    ∃ u x, FollowUp.compile ns config parent key id = .ok u ∧
      u.plan.parts = [⟨entityFor parent key id, fragmentFor ns parent key id m x⟩] ∧
      u.AsksOnly (.iri (ns.expand id)) m x := by
  obtain ⟨hkey, p, hproperty⟩ := Entity.property_of_isDeferred hdeferred
  obtain ⟨⟨x, b⟩, hjoin⟩ : ∃ drawn,
      Allocator.join (Entity.shareAll [entityFor parent key id] .empty) (key ++ toString 0) =
        drawn := ⟨_, rfl⟩
  have hcompile := @compile_entityFor ns config parent key m p hkey hproperty hmapping id
    (Entity.shareAll [entityFor parent key id] .empty)
  rw [hjoin] at hcompile
  obtain ⟨plan, hplan, hfollow, hread⟩ := compile_of_entityFor hcompile
  obtain ⟨parts, -, hquery⟩ := Collection.compileSelectWith_cases hplan
  obtain rfl : parts = _ := (congrArg SelectPlan.parts hquery).symm.trans hread
  refine ⟨_, x, hfollow, hread, ⟨_, hread, asksOnly_fragmentFor ..⟩, ?_, ?_⟩
  · rw [hquery]
    rfl
  · rw [hquery]
    exact isSole_mergePatterns ns parent key id m x

end FollowUp

namespace Collection

variable {ns : Namespaces} {config : Config} {c : Collection} {parts : List Part}

/-- **Arrays never multiply the main query.**  The parts of a main query are the entities of the
collection, each with a fragment that lists the selected arrays, and has for an array neither a
variable that is selected nor a triple other than one that narrows.  The follow-up for an array
with a predicate asks for one triple between the resource and the one variable it selects. -/
theorem main_query_defers_arrays
    (hparts : (∃ plan, c.compileSelect ns config = .ok plan ∧ plan.parts = parts) ∨
      ∃ plan, c.compileConstruct ns config = .ok plan ∧ plan.parts = parts)
    (hconditions : ∀ e ∈ c.entities, e.conditions.keys.Nodup) :
    parts.map (·.entity) = c.entities ∧
      (∀ p ∈ parts, p.fragment.Defers ns config p.entity) ∧
      ∀ e ∈ c.entities, ∀ key m, e.isDeferred {} key = true → e.mapping? ns key = some m →
        ∀ id, ∃ u x, FollowUp.compile ns config e key id = .ok u ∧
          u.AsksOnly (.iri (ns.expand id)) m x := by
  have hcompiled := compileParts_of_main hparts
  have hentities : parts.map (·.entity) = c.entities := Entity.compileEach_entities hcompiled
  refine ⟨hentities, fun p hp => ?_, fun e _ key m hdeferred hmapping id => ?_⟩
  · obtain ⟨b, b', hcompile⟩ := Entity.compileEach_part hcompiled p hp
    have hmem : p.entity ∈ c.entities := hentities ▸ List.mem_map_of_mem hp
    exact Entity.compile_defers hcompile (hconditions _ hmem)
  · obtain ⟨u, x, hcompile, -, hasks⟩ := FollowUp.compile_deferred config hdeferred hmapping id
    exact ⟨u, x, hcompile, hasks⟩

/-- The tags of a person narrow the main query and are listed; they are asked for apart. -/
theorem main_query_defers_arrays_filteredPerson :
    ∃ plan p, (single Entity.filteredPerson).compileSelect .exampleOrg {} = .ok plan ∧
      plan.parts = [p] ∧ p.fragment.arrays = ["tags"] ∧
      p.fragment.projection = [⟨"name0"⟩, ⟨"nick0"⟩, ⟨"age0"⟩] ∧
      p.fragment.Defers .exampleOrg {} Entity.filteredPerson ∧
      ∃ u x, FollowUp.compile .exampleOrg {} Entity.filteredPerson "tags" "ex:alice" = .ok u ∧
        u.AsksOnly (.iri "http://example.org/alice") ⟨"http://example.org/tag", false⟩ x := by
  refine ⟨_, _, rfl, rfl, rfl, rfl, ?_⟩
  have hconditions : ∀ e ∈ (single Entity.filteredPerson).entities, e.conditions.keys.Nodup := by
    intro e he
    obtain rfl := List.mem_singleton.mp he
    decide
  obtain ⟨-, hdefers, hfollow⟩ :=
    main_query_defers_arrays (.inl ⟨_, rfl, rfl⟩) hconditions
  exact ⟨hdefers _ List.mem_cons_self,
    hfollow _ List.mem_cons_self "tags" _ (by decide) rfl "ex:alice"⟩

end Collection

end ObjectGraph
