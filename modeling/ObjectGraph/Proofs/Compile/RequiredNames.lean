import ObjectGraph.Proofs.Compile.FollowUp
import ObjectGraph.Proofs.Compile.JoinedNames
import ObjectGraph.Proofs.Compile.Placement
import ObjectGraph.Proofs.Compile.Subselects

/-!
# Names that an entity requires

A written name that stands in a triple that must be there has a term in every solution of the
patterns of the entity.  Which names these are can be said of the entity itself
(`Entity.Requires`): the name of its subject, if it asks for any such triple; the name of its
type, if that is resolved; and the names of the keys that must be there, which are the required
ones that are fetched and those that a condition narrows, fetched or hidden
(`Entity.compile_requires`).
-/

namespace ObjectGraph

open Allocator (nameOf)
open Sparql (Var Term)

namespace Entity

/-- The name of a variable subject, should it be a written one. -/
def subjectName? (ns : Namespaces) (e : Entity) : Option String :=
  if (e.pin? ns).isSome then none
  else some (nameOf (e.identityName?.getD (Wish.subject.text e.index)))

/-- A selected key outside of the schema stands for a written name. -/
structure Borrows (W : String → Prop) (e : Entity) (key : String) : Prop where
  selected : key ∈ e.selectedKeys
  unknown : e.schema.property? key = none
  written : W (nameOf key)

/-- A key that must be there: it is fetched and required, or a condition narrows it. -/
inductive Needs (W : String → Prop) (ns : Namespaces) (options : CompileOptions) (e : Entity)
    (key : String) (m : Mapping) : Prop
  | required (h : e.Fetches ns options key m) (hrequired : e.schema.isRequired key = true)
  | narrowed (hnamed : Schema.isKeyword key = false)
      (hnarrows : (e.condition? key).any Condition.narrows = true)
      (hmapping : e.mapping? ns key = some m) (hown : ¬ e.Borrows W key)

/-- Whether an entity asks for a triple that must be there. -/
def Insists (W : String → Prop) (ns : Namespaces) (options : CompileOptions) (e : Entity) : Prop :=
  e.resolveType = true ∨ (e.class? ns).isSome = true ∨ ∃ key m, e.Needs W ns options key m

/-- A name that an entity requires for itself. -/
inductive Requires (W : String → Prop) (ns : Namespaces) (options : CompileOptions)
    (e : Entity) : String → Prop
  | subject {n : String} (hname : e.subjectName? ns = some n) (hinsists : e.Insists W ns options) :
      Requires W ns options e n
  | type (hresolve : e.resolveType = true) :
      Requires W ns options e (nameOf (Wish.type.text e.index))
  | key {key : String} {m : Mapping} (hneeds : e.Needs W ns options key m) :
      Requires W ns options e (e.propertyName key (e.condition? key))

end Entity

/-- The keys of the variables of a draft stand for written names, or their values are fetched. -/
def Draft.Sourced (W : String → Prop) (ns : Namespaces) (options : CompileOptions) (e : Entity)
    (d : Draft) : Prop :=
  ∀ key ∈ d.fragment.props.keys, Schema.isKeyword key = false →
    e.Borrows W key ∨ ∃ m, e.Fetches ns options key m

namespace Draft.Sourced

variable {W : String → Prop} {ns : Namespaces} {config : Config} {options : CompileOptions}
  {e : Entity} {d d' : Draft} {key : String}

/-- At the start there are no keys but those of the identity. -/
theorem opening (subject : Term) (a : Allocator) :
    Sourced W ns options e (Draft.opening ns e subject a) := by
  unfold Sourced Draft.opening addIdentity
  split <;> exact nofun

/-- A key that stands for a written name or is fetched may be entered. -/
theorem insert (h : Sourced W ns options e d) {x : Var}
    (hprops : d'.fragment.props = d.fragment.props.insert key x)
    (hkey : Schema.isKeyword key = false → e.Borrows W key ∨ ∃ m, e.Fetches ns options key m) :
    Sourced W ns options e d' := by
  intro k hk
  rw [hprops] at hk
  rcases KeyVars.mem_keys_insert hk with hold | rfl
  · exact h k hold
  · exact hkey

/-- The type is entered under a keyword. -/
theorem types (h : Sourced W ns options e d) (hstep : Types ns e d d') :
    Sourced W ns options e d' := by
  cases hstep with
  | exact | untyped => exact h
  | resolved => exact h.insert rfl (by simp [Schema.isKeyword])

/-- A selected key that is entered stands for a written name or is fetched. -/
theorem selects (h : Sourced W ns options e d) (hready : Ready W d.alloc)
    (hkey : key ∈ e.selectedKeys) (hstep : Selects ns options e key d d') :
    Sourced W ns options e d' := by
  cases hstep with
  | pinned | type | computed | unknown | unmapped | deferred => exact h
  | identity => exact h.insert rfl (by simp [Schema.isKeyword])
  | borrowed _ hunknown hshared =>
      have hwritten : W (nameOf key) :=
        hready.shared _ (by simpa [Allocator.isShared] using hshared)
      exact h.insert rfl fun _ => .inl ⟨hkey, hunknown, hwritten⟩
  | @property p m hnamed hcomputed hproperty hnow hmapping =>
      refine h.insert rfl fun _ =>
        .inr ⟨m, hkey, hnamed, by simp [hproperty], hcomputed, ?_, hmapping⟩
      rw [Bool.and_comm] at hnow
      simp [Entity.isDeferred, Schema.kindOf_of_property hnamed hproperty, hnow]

/-- A condition enters no selected key. -/
theorem restricts (h : Sourced W ns options e d) {c : Condition}
    (hstep : Restricts ns config e key d c d') : Sourced W ns options e d' := by
  cases hstep <;> exact h

end Draft.Sourced

namespace Entity

variable {W : String → Prop} {ns : Namespaces} {config : Config} {options : CompileOptions}
  {e : Entity} {a a' : Allocator} {f : Fragment}

/-- A subject has the written name that is its own. -/
theorem subject_of_name {s : Term} (ha : Reserves W a) (hs : e.subjectTerm ns a = .ok (s, a'))
    {n : String} (hn : W n) (hname : e.subjectName? ns = some n) : s = .var ⟨n⟩ := by
  unfold subjectName? at hname
  rcases subjectTerm_cases hs with ⟨_, hpin, -⟩ | ⟨hpin, name, hc, rfl, -⟩ | ⟨hpin, hfree, rfl, -⟩
  · simp [hpin] at hname
  · obtain rfl : nameOf name = n := by
      simpa [hpin, identityName?, hc, Condition.sharedName?] using hname
    rfl
  · obtain rfl : nameOf (Wish.subject.text e.index) = n := by simpa [hpin, hfree] using hname
    have hvar := Draft.name_of_join ha.ready ha.shared (Wish.subject.text e.index) (.inr hn)
    exact congrArg Term.var (congrArg Var.mk hvar)

/-- The triple of a key, with the name that the key asks for if that is a written one. -/
def HasTriple (W : String → Prop) (e : Entity) (f : Fragment) (key : String) (m : Mapping) : Prop :=
  ∃ x, m.triple f.subject (.var x) ∈ f.mandatory ∧
    (W (e.propertyName key (e.condition? key)) → x.name = e.propertyName key (e.condition? key))

/-- The triple of a key is mandatory in the end if it was added to the mandatory ones. -/
theorem hasTriple_of_grows {d d' : Draft} {key : String} {m : Mapping} {c : Option Condition}
    (hd : Draft.Steady W e d) (hgrows : d'.fragment.Extends f)
    (hsubject : d'.fragment.subject = d.fragment.subject) (hc : c = e.condition? key)
    (htriple : m.triple d.fragment.subject (.var (Draft.varFor e key c d.alloc).1) ∈
      d'.fragment.mandatory) : e.HasTriple W f key m := by
  subst hc
  refine ⟨_, ?_, fun hW => Draft.name_of_varFor hd.apart.ready hd.shared _ (.inr hW)⟩
  rw [hgrows.subject, hsubject]
  exact hgrows.mandatory htriple

/-- A fetched key that must be there has its triple. -/
theorem compile_fetched (ha : Reserves W a) (hwithin : ∀ entry ∈ e.conditions, entry.2.Within W)
    (h : e.compile ns config options a = .ok (f, a')) {key : String} {m : Mapping}
    (hfetched : e.Fetches ns options key m) (hmust : Draft.mustHave e key = true) :
    e.HasTriple W f key m := by
  obtain ⟨last, hwalk, rfl, -⟩ := compile_walk (Draft.Steady W e) Draft.builds_extends
    (fun subject b hs => .opening ha.ready ha.shared hwithin hs)
    (fun _ _ hd hstep => ⟨(hd.types hstep).1, hstep.extends⟩)
    (fun _ _ _ _ hd hstep => ⟨(hd.selects hwithin hstep).1, hstep.extends⟩)
    (fun entry hentry _ _ hd hstep => ⟨(hd.restricts (hwithin entry hentry) hstep).1,
      hstep.extends⟩)
    h
  obtain ⟨d, d', hd, hstep, hgrows⟩ := hwalk.selected key hfetched.selected
  have hnamed := hfetched.named
  cases hstep with
  | identity hid | pinned hid | type hid =>
      subst hid
      cases hnamed
  | computed _ hcomputed =>
      rw [hfetched.uncomputed] at hcomputed
      cases hcomputed
  | borrowed _ hunknown | unknown _ hunknown => exact (hfetched.known hunknown).elim
  | deferred _ hproperty harray hdefer =>
      have hundeferred := hfetched.undeferred
      simp [isDeferred, Schema.kindOf_of_property hnamed hproperty, harray, hdefer,
        hfetched.uncomputed] at hundeferred
  | unmapped _ _ hunmapped =>
      rw [hfetched.mapping] at hunmapped
      cases hunmapped
  | @property _ m' _ _ _ _ hmapping =>
      obtain rfl : m = m' := Option.some.inj (hfetched.mapping.symm.trans hmapping)
      refine hasTriple_of_grows hd (hgrows.trans (.selected _ _)) rfl rfl ?_
      rw [Draft.addProperty_mandatory, if_pos hmust]
      exact List.mem_append_right _ List.mem_cons_self

/-- A narrowed key has its triple: it is fetched, or its variable is hidden. -/
theorem compile_narrowed (ha : Reserves W a) (hwithin : ∀ entry ∈ e.conditions, entry.2.Within W)
    (h : e.compile ns config options a = .ok (f, a')) {key : String} {m : Mapping}
    (hnamed : Schema.isKeyword key = false)
    (hnarrows : (e.condition? key).any Condition.narrows = true)
    (hmapping : e.mapping? ns key = some m) (hown : ¬ e.Borrows W key) : e.HasTriple W f key m := by
  obtain ⟨last, hwalk, rfl, -⟩ := compile_walk
    (fun d => Draft.Steady W e d ∧ Draft.Sourced W ns options e d) Draft.builds_extends
    (fun subject b hs => ⟨.opening ha.ready ha.shared hwithin hs, .opening subject b⟩)
    (fun _ _ hd hstep => ⟨⟨(hd.1.types hstep).1, hd.2.types hstep⟩, hstep.extends⟩)
    (fun _ hkey _ _ hd hstep => ⟨⟨(hd.1.selects hwithin hstep).1,
      hd.2.selects hd.1.apart.ready hkey hstep⟩, hstep.extends⟩)
    (fun entry hentry _ _ hd hstep => ⟨⟨(hd.1.restricts (hwithin entry hentry) hstep).1,
      hd.2.restricts hstep⟩, hstep.extends⟩)
    h
  obtain ⟨c, hc, hcondition⟩ : ∃ c, e.condition? key = some c ∧ c.narrows = true := by
    simpa [Option.any_eq_true] using hnarrows
  obtain ⟨d, d', hd, hstep, hgrows⟩ := hwalk.conditions _ (mem_of_condition? hc)
  cases hstep with
  | keyword hword =>
      rw [hnamed] at hword
      cases hword
  | selected hselected =>
      have hmem : key ∈ d.fragment.props.keys := Decidable.not_not.mp fun hnot => by
        rw [KeyVars.contains, Assoc.contains, Assoc.get?_eq_none_iff.mpr hnot] at hselected
        cases hselected
      rcases hd.2 key hmem hnamed with hborrows | ⟨m', hfetched⟩
      · exact (hown hborrows).elim
      · obtain rfl : m = m' := Option.some.inj (hmapping.symm.trans hfetched.mapping)
        exact compile_fetched ha hwithin h hfetched (by simp [Draft.mustHave, hnarrows])
  | unmapped _ hunmapped =>
      rw [hmapping] at hunmapped
      cases hunmapped
  | computed => cases hcondition
  | existence _ _ hrelation => simp [Condition.narrows, hrelation] at hcondition
  | @hidden m' _ _ hmapping' =>
      obtain rfl : m = m' := Option.some.inj (hmapping.symm.trans hmapping')
      exact hasTriple_of_grows hd.1 (hgrows.trans (.selected _ _)) rfl hc.symm
        (List.mem_append_right _ List.mem_cons_self)

/-- A key that must be there has its triple. -/
theorem compile_needs (ha : Reserves W a) (hwithin : ∀ entry ∈ e.conditions, entry.2.Within W)
    (h : e.compile ns config options a = .ok (f, a')) {key : String} {m : Mapping}
    (hneeds : e.Needs W ns options key m) : e.HasTriple W f key m := by
  cases hneeds with
  | required hfetched hrequired =>
      exact compile_fetched ha hwithin h hfetched (by simp [Draft.mustHave, hrequired])
  | narrowed hnamed hnarrows hmapping hown =>
      exact compile_narrowed ha hwithin h hnamed hnarrows hmapping hown

/-- An entity that insists on a triple has one. -/
theorem compile_insists (ha : Reserves W a) (hwithin : ∀ entry ∈ e.conditions, entry.2.Within W)
    (h : e.compile ns config options a = .ok (f, a')) (hinsists : e.Insists W ns options) :
    ∃ t, t ∈ f.mandatory := by
  rcases hinsists with hresolve | hclass | ⟨key, m, hneeds⟩
  · obtain ⟨b, hs⟩ := compile_subject h
    have hasks : e.Asks ns config options a .type b := .type hs hresolve
    cases hasks.fulfils h with
    | type htriple => exact ⟨_, htriple⟩
  · obtain ⟨last, hwalk, rfl, -⟩ := compile_extends h
    obtain ⟨d, d', -, hstep, hgrows⟩ := hwalk.type
    cases hstep with
    | resolved | exact => exact ⟨_, hgrows.mandatory (List.mem_append_right _ List.mem_cons_self)⟩
    | untyped hnone =>
        rw [hnone] at hclass
        cases hclass
  · obtain ⟨x, htriple, -⟩ := compile_needs ha hwithin h hneeds
    exact ⟨_, htriple⟩

/-- **Required names are bound.**  A written name that an entity requires stands in a triple that
must be there. -/
theorem compile_requires (ha : Reserves W a) (hwithin : ∀ entry ∈ e.conditions, entry.2.Within W)
    (h : e.compile ns config options a = .ok (f, a')) {n : String} (hn : W n)
    (hrequires : e.Requires W ns options n) : ∃ t ∈ f.mandatory, (⟨n⟩ : Var) ∈ t.vars := by
  cases hrequires with
  | subject hname hinsists =>
      obtain ⟨t, ht⟩ := compile_insists ha hwithin h hinsists
      obtain ⟨b, hs⟩ := compile_subject h
      have hsubject : f.subject = .var ⟨n⟩ := subject_of_name ha hs hn hname
      exact ⟨t, ht, (compile_anchored h).subject t (List.mem_append_left _ ht) _ hsubject⟩
  | type hresolve =>
      obtain ⟨b, hs⟩ := compile_subject h
      have hasks : e.Asks ns config options a .type b := .type hs hresolve
      have hvar := (hasks.name_iff ha hwithin hn).mpr rfl
      cases hasks.fulfils h with
      | type htriple =>
          refine ⟨_, htriple, Sparql.Triple.mem_vars_of_iri.mpr (.inr ?_)⟩
          rw [← hvar]
  | key hneeds =>
      obtain ⟨x, htriple, hname⟩ := compile_needs ha hwithin h hneeds
      refine ⟨_, htriple, Mapping.mem_vars_triple.mpr (.inr ?_)⟩
      rw [← hname hn]

end Entity

end ObjectGraph
