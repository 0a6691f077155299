import ObjectGraph.Proofs.Compile.Comparisons
import ObjectGraph.Proofs.Compile.Growth
import ObjectGraph.Proofs.Compile.Slots
import ObjectGraph.Proofs.Variable.Names
import ObjectGraph.Proofs.Variable.Pairs

/-!
# Where the triples of keys stand

A selected key of the schema has its triple among the mandatory ones if every instance has the
key or a condition narrows it, and among those that may be missing otherwise.  A condition that
narrows a key which the selection passes over brings a mandatory triple of its own.  Filters are
made apart from the triples, but a filter only compares a variable where the condition narrows,
and there the triple is mandatory (`Entity.compile_places`).

Everything rests on one invariant of drafts (`Draft.Placed`): each triple has a source, each
variable of a key has its triple where the key belongs, and each filter has its triples.
Identity and type are no such keys: the selection has steps of their own for them, and never
looks up a predicate.
-/

namespace ObjectGraph

open Sparql (Var Term Triple Expression)

/-- A property of the schema has the kind that the schema gives it. -/
theorem Schema.kindOf_of_property {s : Schema} {key : String} {p : PropertySchema}
    (hkey : isKeyword key = false) (hproperty : s.property? key = some p) :
    s.kindOf key = p.kind := by
  simp [kindOf, hkey, hproperty]

/-- A key outside of the schema is a text. -/
theorem Schema.kindOf_of_unknown {s : Schema} {key : String} (hkey : isKeyword key = false)
    (hunknown : s.property? key = none) : s.kindOf key = .string := by
  simp [kindOf, hkey, hunknown]

namespace MostSpecificType

variable {subject : Term} {class_ : Option String} {index : Nat} {a a' : Allocator}
  {type : MostSpecificType}

/-- The triple of a resolved type links the subject to the variable of the type. -/
theorem compile_triple (h : compile subject class_ index a = (type, a')) :
    type.triple = .ofType subject (.var type.typeVar) := by
  cases class_ <;> cases h <;> rfl

/-- Its filters only test for existence. -/
theorem openVars_filters (h : compile subject class_ index a = (type, a')) :
    ∀ g ∈ type.filters, g.openVars = [] := by
  cases class_ <;> cases h <;> simp [noNarrower, under, Expression.openVars]

end MostSpecificType

namespace Entity

/-- Whether no two keys have the same predicate in the same direction. -/
def HasDistinctPredicates (ns : Namespaces) (e : Entity) : Prop :=
  ∀ key key' m, e.mapping? ns key = some m → e.mapping? ns key' = some m → key = key'

/-- A key with a predicate is defined in the context of the entity. -/
theorem mem_context_of_mapping {ns : Namespaces} {e : Entity} {key : String} {m : Mapping}
    (h : e.mapping? ns key = some m) : key ∈ Assoc.keys e.schema.context := by
  cases hentry : Assoc.get? e.schema.context key with
  | none => simp [mapping?, Schema.mapping?, hentry] at h
  | some v => exact List.mem_map_of_mem (Assoc.mem_of_get? hentry)

/-- Only the keys of the context have to be looked at. -/
instance (ns : Namespaces) (e : Entity) : Decidable (e.HasDistinctPredicates ns) :=
  decidable_of_iff
    (∀ key ∈ Assoc.keys e.schema.context, ∀ key' ∈ Assoc.keys e.schema.context,
      e.mapping? ns key = e.mapping? ns key' → e.mapping? ns key ≠ none → key = key')
    { mp := fun h key key' m hm hm' => h key (mem_context_of_mapping hm) key'
        (mem_context_of_mapping hm') (hm.trans hm'.symm) (by simp [hm])
      mpr := fun h key _ key' _ hsame hmapped => by
        obtain ⟨m, hm⟩ := Option.ne_none_iff_exists'.mp hmapped
        exact h key key' m hm (hsame.symm.trans hm) }

/-- Whether the values of a key are left to queries of their own: it is an array and not
computed. -/
def isDeferred (options : CompileOptions) (e : Entity) (key : String) : Bool :=
  options.deferArrays && (e.schema.kindOf key).isArray &&
    !(e.condition? key).any Condition.isComputed

/-- A selected key of the schema whose values the query itself fetches. -/
structure Fetches (ns : Namespaces) (options : CompileOptions) (e : Entity) (key : String)
    (m : Mapping) : Prop where
  selected : key ∈ e.selectedKeys
  named : Schema.isKeyword key = false
  known : e.schema.property? key ≠ none
  uncomputed : (e.condition? key).any Condition.isComputed = false
  undeferred : e.isDeferred options key = false
  mapping : e.mapping? ns key = some m

/-- A key that a condition narrows and whose values the query does not fetch. -/
structure Narrows (ns : Namespaces) (options : CompileOptions) (e : Entity) (key : String)
    (m : Mapping) : Prop where
  named : Schema.isKeyword key = false
  unfetched : key ∉ e.selectedKeys ∨ e.isDeferred options key = true
  narrowed : (e.condition? key).any Condition.narrows = true
  mapping : e.mapping? ns key = some m

end Entity

namespace Draft

variable {ns : Namespaces} {config : Config} {options : CompileOptions} {e : Entity}
  {key : String} {d d' : Draft} {f f' : Fragment}

/-- The triples among which that of a selected key belongs. -/
def place (e : Entity) (key : String) (f : Fragment) : List Triple :=
  if mustHave e key then f.mandatory else f.optional

/-- Where a mandatory triple comes from: the type, a selected key that must be there, or a
condition that narrows its key, the variable of which is then hidden. -/
inductive Required (ns : Namespaces) (options : CompileOptions) (e : Entity) (f : Fragment) :
    Triple → Prop
  | typed {x : Var} (htype : f.typeVar = some x) :
      Required ns options e f (.ofType f.subject (.var x))
  | classified (class_ : String) : Required ns options e f (exactType f.subject class_)
  | fetched {key : String} {m : Mapping} (x : Var) (hfetched : e.Fetches ns options key m)
      (hmust : mustHave e key = true) : Required ns options e f (m.triple f.subject (.var x))
  | narrowed {key : String} {c : Condition} {m : Mapping} {x : Var}
      (hcondition : (key, c) ∈ e.conditions) (hnarrows : c.narrows = true)
      (hmapping : e.mapping? ns key = some m) (hhidden : x ∈ f.hidden.vars) :
      Required ns options e f (m.triple f.subject (.var x))

/-- Where a triple comes from that may be missing. -/
def Desired (ns : Namespaces) (options : CompileOptions) (e : Entity) (f : Fragment)
    (t : Triple) : Prop :=
  ∃ key m x, e.Fetches ns options key m ∧ mustHave e key = false ∧
    t = m.triple f.subject (.var x)

/-- The variable of a selected key has the triple of the key where it belongs. -/
def Shown (ns : Namespaces) (options : CompileOptions) (e : Entity) (f : Fragment)
    (entry : String × Var) : Prop :=
  Schema.isKeyword entry.1 = false →
    entry.1 ∈ e.selectedKeys ∧ e.isDeferred options entry.1 = false ∧
      ∀ m, e.Fetches ns options entry.1 m → m.triple f.subject (.var entry.2) ∈ place e entry.1 f

/-- A hidden variable has the triple of its key among the mandatory ones. -/
def Hidden (ns : Namespaces) (e : Entity) (done : Assoc Condition) (f : Fragment)
    (entry : String × Var) : Prop :=
  entry.1 ∈ done.keys ∧
    ∀ m, e.mapping? ns entry.1 = some m → m.triple f.subject (.var entry.2) ∈ f.mandatory

/-- All that a filter reads, other than the subject, is in the mandatory triple of a key. -/
def Backed (ns : Namespaces) (e : Entity) (f : Fragment) (g : Expression) : Prop :=
  ∀ x ∈ g.openVars, f.subject = .var x ∨
    ∃ key m, e.mapping? ns key = some m ∧ m.triple f.subject (.var x) ∈ f.mandatory

/-- What is said of a draft after some selected keys and some conditions. -/
structure Placed (ns : Namespaces) (options : CompileOptions) (e : Entity)
    (selected : List String) (done : Assoc Condition) (d : Draft) : Prop where
  mandatory : ∀ t ∈ d.fragment.mandatory, Required ns options e d.fragment t
  optional : ∀ t ∈ d.fragment.optional, Desired ns options e d.fragment t
  props : ∀ entry ∈ d.fragment.props.entries, Shown ns options e d.fragment entry
  hidden : ∀ entry ∈ d.fragment.hidden.entries, Hidden ns e done d.fragment entry
  filters : ∀ g ∈ d.fragment.filters, Backed ns e d.fragment g
  fetched : ∀ key ∈ selected, ∀ m, e.Fetches ns options key m →
    ∃ x, m.triple d.fragment.subject (.var x) ∈ place e key d.fragment
  narrowed : ∀ key ∈ done.keys, ∀ m, e.Narrows ns options key m →
    ∃ x, x ∈ d.fragment.hidden.vars ∧ m.triple d.fragment.subject (.var x) ∈ d.fragment.mandatory

/-! ## Growing fragments -/

/-- Triples stay where they belong. -/
theorem place_subset (h : f.Extends f') (key : String) : place e key f ⊆ place e key f' := by
  unfold place
  split
  · exact h.mandatory
  · exact h.optional

/-- What a fragment grows by when its type is settled. -/
structure Widens (f f' : Fragment) : Prop extends f.Extends f' where
  typeVar : f'.typeVar = f.typeVar
  hidden : f.hidden.vars ⊆ f'.hidden.vars

/-- A triple that must be there keeps its reason. -/
theorem Required.mono {t : Triple} (h : Required ns options e f t) (hw : Widens f f') :
    Required ns options e f' t := by
  cases h with
  | typed htype => exact hw.subject ▸ .typed (hw.typeVar.trans htype)
  | classified class_ => exact hw.subject ▸ .classified class_
  | fetched x hfetched hmust => exact hw.subject ▸ .fetched x hfetched hmust
  | narrowed hcondition hnarrows hmapping hhidden =>
      exact hw.subject ▸ .narrowed hcondition hnarrows hmapping (hw.hidden hhidden)

/-- A triple that may be missing keeps its reason. -/
theorem Desired.mono {t : Triple} (h : Desired ns options e f t) (hw : f.Extends f') :
    Desired ns options e f' t := by
  obtain ⟨key, m, x, hfetched, hmust, rfl⟩ := h
  exact ⟨key, m, x, hfetched, hmust, by rw [hw.subject]⟩

/-- The triple of a selected key stays where it belongs. -/
theorem Shown.mono {entry : String × Var} (h : Shown ns options e f entry)
    (hw : f.Extends f') : Shown ns options e f' entry := by
  intro hkey
  obtain ⟨hselected, hdeferred, htriple⟩ := h hkey
  refine ⟨hselected, hdeferred, fun m hfetched => ?_⟩
  rw [hw.subject]
  exact place_subset hw _ (htriple m hfetched)

/-- A hidden variable keeps its triple, also after more conditions. -/
theorem Hidden.mono {entry : String × Var} {done done' : Assoc Condition}
    (h : Hidden ns e done f entry) (hw : f.Extends f') (hdone : done.keys ⊆ done'.keys) :
    Hidden ns e done' f' entry := by
  refine ⟨hdone h.1, fun m hmapping => ?_⟩
  rw [hw.subject]
  exact hw.mandatory (h.2 m hmapping)

/-- A filter keeps the triple that binds what it reads. -/
theorem Backed.mono {g : Expression} (h : Backed ns e f g) (hw : f.Extends f') :
    Backed ns e f' g := by
  intro x hx
  rcases h x hx with hsubject | ⟨key, m, hmapping, htriple⟩
  · exact .inl (hw.subject.trans hsubject)
  · refine .inr ⟨key, m, hmapping, ?_⟩
    rw [hw.subject]
    exact hw.mandatory htriple

namespace Placed

variable {selected selected' : List String} {done done' : Assoc Condition}

/-- A draft that grows stays as is said if all that is new is. -/
theorem grow (h : Placed ns options e selected done d) (hw : Widens d.fragment d'.fragment)
    (hdone : done.keys ⊆ done'.keys)
    (hmandatory : ∀ t ∈ d'.fragment.mandatory,
      t ∈ d.fragment.mandatory ∨ Required ns options e d'.fragment t)
    (hoptional : ∀ t ∈ d'.fragment.optional,
      t ∈ d.fragment.optional ∨ Desired ns options e d'.fragment t)
    (hprops : ∀ entry ∈ d'.fragment.props.entries,
      entry ∈ d.fragment.props.entries ∨ Shown ns options e d'.fragment entry)
    (hhidden : ∀ entry ∈ d'.fragment.hidden.entries,
      entry ∈ d.fragment.hidden.entries ∨ Hidden ns e done' d'.fragment entry)
    (hfilters : ∀ g ∈ d'.fragment.filters,
      g ∈ d.fragment.filters ∨ Backed ns e d'.fragment g)
    (hfetched : ∀ key ∈ selected', key ∈ selected ∨ ∀ m, e.Fetches ns options key m →
      ∃ x, m.triple d'.fragment.subject (.var x) ∈ place e key d'.fragment)
    (hnarrowed : ∀ key ∈ done'.keys, key ∈ done.keys ∨ ∀ m, e.Narrows ns options key m →
      ∃ x, x ∈ d'.fragment.hidden.vars ∧
        m.triple d'.fragment.subject (.var x) ∈ d'.fragment.mandatory) :
    Placed ns options e selected' done' d' where
  mandatory t ht := (hmandatory t ht).elim (fun hold => (h.mandatory t hold).mono hw) id
  optional t ht := (hoptional t ht).elim (fun hold => (h.optional t hold).mono hw.toExtends) id
  props entry hentry :=
    (hprops entry hentry).elim (fun hold => (h.props entry hold).mono hw.toExtends) id
  hidden entry hentry :=
    (hhidden entry hentry).elim (fun hold => (h.hidden entry hold).mono hw.toExtends hdone) id
  filters g hg := (hfilters g hg).elim (fun hold => (h.filters g hold).mono hw.toExtends) id
  fetched key hkey m hm := by
    rcases hfetched key hkey with hold | hnew
    · obtain ⟨x, hx⟩ := h.fetched key hold m hm
      refine ⟨x, ?_⟩
      rw [hw.subject]
      exact place_subset hw.toExtends key hx
    · exact hnew m hm
  narrowed key hkey m hm := by
    rcases hnarrowed key hkey with hold | hnew
    · obtain ⟨x, hx, htriple⟩ := h.narrowed key hold m hm
      refine ⟨x, hw.hidden hx, ?_⟩
      rw [hw.subject]
      exact hw.mandatory htriple
    · exact hnew m hm

/-- A filter on the identity reads the subject. -/
theorem backed_opening (subject : Term) (b : Allocator) :
    ∀ g ∈ (Draft.opening ns e subject b).fragment.filters,
      Backed ns e (Draft.opening ns e subject b).fragment g := by
  intro g hg x hx
  unfold Draft.opening addIdentity at hg ⊢
  split at hg
  next relation values y hcondition hsubject =>
    have hchecks := Filter.related_checks (Option.mem_toList.mp (by simpa [start] using hg))
    have hxy : x = y := (hchecks.mem_openVars_iff x).mp hx
    exact .inl (hxy ▸ hsubject)
  next => simp [start] at hg

/-- The type brings its triple, and filters that read nothing outside of their groups. -/
theorem opening {subject : Term} {b : Allocator}
    (hstep : Types ns e (Draft.opening ns e subject b) d) : Placed ns options e [] [] d := by
  have hfilters : ∀ g ∈ (Draft.opening ns e subject b).fragment.filters,
      Backed ns e (Draft.opening ns e subject b).fragment g := backed_opening subject b
  obtain ⟨hmandatory, hoptional, hprops, hhidden⟩ :
      (Draft.opening ns e subject b).fragment.mandatory = [] ∧
      (Draft.opening ns e subject b).fragment.optional = [] ∧
      (Draft.opening ns e subject b).fragment.props = .empty ∧
      (Draft.opening ns e subject b).fragment.hidden = .empty := by
    unfold Draft.opening addIdentity
    split <;> exact ⟨rfl, rfl, rfl, rfl⟩
  generalize Draft.opening ns e subject b = d₀ at *
  have hw : d₀.fragment.Extends d.fragment := hstep.extends
  have hsame : d.fragment.optional = [] ∧ d.fragment.hidden = .empty := by
    cases hstep <;> exact ⟨hoptional, hhidden⟩
  constructor
  case mandatory =>
    intro t ht
    cases hstep with
    | @resolved type a _ htype =>
        obtain rfl : t = type.triple := by simpa [hmandatory] using ht
        rw [MostSpecificType.compile_triple htype]
        exact .typed rfl
    | exact =>
        obtain rfl := List.mem_singleton.mp (by simpa [hmandatory] using ht)
        exact .classified _
    | untyped => simp [hmandatory] at ht
  case optional => simp [hsame]
  case hidden => simp [hsame, KeyVars.empty]
  case props =>
    intro entry hentry hkey
    cases hstep with
    | resolved =>
        rcases KeyVars.mem_insert hentry with hold | rfl
        · simp [hprops, KeyVars.empty] at hold
        · simp [Schema.isKeyword] at hkey
    | exact | untyped => simp [hprops, KeyVars.empty] at hentry
  case filters =>
    intro g hg
    cases hstep with
    | @resolved type a _ htype =>
        rcases List.mem_append.mp hg with hold | hnew
        · exact (hfilters g hold).mono hw
        · intro x hx
          simp [MostSpecificType.openVars_filters htype g hnew] at hx
    | exact | untyped => exact (hfilters g hg).mono hw
  case fetched => exact fun _ hkey => (List.not_mem_nil hkey).elim
  case narrowed => exact fun _ hkey => (List.not_mem_nil hkey).elim

/-- A selected key that is not fetched adds at most its variable. -/
theorem pass (h : Placed ns options e selected done d) (hw : Widens d.fragment d'.fragment)
    (hsame : d'.fragment.mandatory = d.fragment.mandatory ∧
      d'.fragment.optional = d.fragment.optional ∧ d'.fragment.hidden = d.fragment.hidden ∧
      d'.fragment.filters = d.fragment.filters)
    (hprops : ∀ entry ∈ d'.fragment.props.entries,
      entry ∈ d.fragment.props.entries ∨ Shown ns options e d'.fragment entry)
    (hunfetched : ∀ m, ¬ e.Fetches ns options key m) :
    Placed ns options e (selected ++ [key]) done d' := by
  obtain ⟨hmandatory, hoptional, hhidden, hfilters⟩ := hsame
  refine h.grow hw (List.Subset.refl _) (fun t ht => .inl (hmandatory ▸ ht))
    (fun t ht => .inl (hoptional ▸ ht)) hprops (fun entry hentry => .inl (hhidden ▸ hentry))
    (fun g hg => .inl (hfilters ▸ hg)) ?_ (fun _ => .inl)
  intro k hk
  rcases List.mem_append.mp hk with hk | hk
  · exact .inl hk
  · obtain rfl := List.mem_singleton.mp hk
    exact .inr fun m hm => (hunfetched m hm).elim

/-- A condition that compares a variable has its triple among the mandatory ones. -/
theorem backed_conditionFilter {m : Mapping} {x : Var} {c : Condition} {a : Allocator}
    {g : Expression} (hmapping : e.mapping? ns key = some m)
    (hmandatory : c.narrows = true → m.triple f.subject (.var x) ∈ f.mandatory)
    (h : (conditionFilter ns e f.subject m key x c a).1 = some g) : Backed ns e f g := by
  intro y hy
  rcases conditionFilter_checks h with ⟨hnarrows, hchecks⟩ | ⟨-, relation, witness, rfl⟩
  · obtain rfl : y = x := (hchecks.mem_openVars_iff y).mp hy
    exact .inr ⟨key, m, hmapping, hmandatory hnarrows⟩
  · simp [Mapping.openVars_test] at hy

/-- A selected key that is fetched has its triple where it belongs. -/
theorem property (h : Placed ns options e selected done d) {m : Mapping}
    (hfetched : e.Fetches ns options key m)
    (hw : Widens d.fragment (addProperty ns e key m d).fragment) :
    Placed ns options e (selected ++ [key]) done (addProperty ns e key m d) := by
  obtain ⟨x, hx⟩ : ∃ x, (varFor e key (e.condition? key) d.alloc).1 = x := ⟨_, rfl⟩
  have htriple : propertyTriple e key m d = m.triple d.fragment.subject (.var x) := by
    rw [propertyTriple, hx]
  have hmandatory := addProperty_mandatory ns e key m d
  have hoptional := addProperty_optional ns e key m d
  rw [htriple] at hmandatory hoptional
  have hprops : (addProperty ns e key m d).fragment.props = d.fragment.props.insert key x :=
    hx ▸ rfl
  have hhidden : (addProperty ns e key m d).fragment.hidden = d.fragment.hidden := rfl
  have hfilters : (addProperty ns e key m d).fragment.filters =
      d.fragment.filters ++ (propertyFilter ns e key m d).1.toList := rfl
  have hsubject := hw.subject
  generalize addProperty ns e key m d = d' at *
  have hplace : m.triple d'.fragment.subject (.var x) ∈ place e key d'.fragment := by
    unfold place
    rw [hsubject]
    cases hmust : mustHave e key with
    | true => simp [hmandatory, hmust]
    | false => simp [hoptional, hmust]
  have hsame : ∀ m', e.Fetches ns options key m' →
      m'.triple d'.fragment.subject (.var x) ∈ place e key d'.fragment := by
    intro m' hm'
    obtain rfl : m = m' := Option.some.inj (hfetched.mapping.symm.trans hm'.mapping)
    exact hplace
  refine h.grow hw (List.Subset.refl _) ?mandatory ?optional ?props
    (fun _ hold => .inl (hhidden ▸ hold)) ?filters ?fetched (fun _ => .inl)
  case mandatory =>
    intro t ht
    rw [hmandatory] at ht
    split at ht
    next hmust =>
      rcases List.mem_append.mp ht with hold | hnew
      · exact .inl hold
      · obtain rfl := List.mem_singleton.mp hnew
        exact .inr (hsubject ▸ .fetched x hfetched hmust)
    next => exact .inl ht
  case optional =>
    intro t ht
    rw [hoptional] at ht
    split at ht
    next => exact .inl ht
    next hmust =>
      rcases List.mem_append.mp ht with hold | hnew
      · exact .inl hold
      · obtain rfl := List.mem_singleton.mp hnew
        exact .inr ⟨key, m, x, hfetched, by simpa using hmust, by rw [hsubject]⟩
  case props =>
    intro entry hentry
    rw [hprops] at hentry
    rcases KeyVars.mem_insert hentry with hold | rfl
    · exact .inl hold
    · exact .inr fun _ => ⟨hfetched.selected, hfetched.undeferred, hsame⟩
  case filters =>
    intro g hg
    rw [hfilters] at hg
    rcases List.mem_append.mp hg with hold | hnew
    · exact .inl hold
    · unfold propertyFilter at hnew
      cases hcondition : e.condition? key with
      | none => simp [hcondition] at hnew
      | some c =>
          have hfilter := Option.mem_toList.mp (by simpa only [hcondition] using hnew)
          rw [hcondition] at hx
          rw [hx, ← hsubject] at hfilter
          refine .inr (backed_conditionFilter hfetched.mapping (fun hnarrows => ?_) hfilter)
          have hmust : mustHave e key = true := by simp [mustHave, hcondition, hnarrows]
          simpa [place, hmust] using hplace
  case fetched =>
    intro k hk
    rcases List.mem_append.mp hk with hk | hk
    · exact .inl hk
    · obtain rfl := List.mem_singleton.mp hk
      exact .inr fun m' hm' => ⟨x, hsame m' hm'⟩

/-- One more selected key. -/
theorem selects (h : Placed ns options e selected done d) (hkey : key ∈ e.selectedKeys)
    (hstep : Selects ns options e key d d') :
    Placed ns options e (selected ++ [key]) done d' := by
  have hw : Widens d.fragment d'.fragment :=
    { hstep.extends with
      typeVar := by cases hstep <;> rfl
      hidden := by cases hstep <;> exact List.Subset.refl _ }
  cases hstep with
  | identity hid _ =>
      subst hid
      refine h.pass hw ⟨rfl, rfl, rfl, rfl⟩ ?_ fun m hm => by cases hm.named
      intro entry hentry
      rcases KeyVars.mem_insert hentry with hold | rfl
      · exact .inl hold
      · exact .inr nofun
  | pinned hid _ | type hid =>
      subst hid
      exact h.pass hw ⟨rfl, rfl, rfl, rfl⟩ (fun _ => .inl) fun m hm => by cases hm.named
  | computed _ hcomputed =>
      refine h.pass hw ⟨rfl, rfl, rfl, rfl⟩ (fun _ => .inl) fun m hm => ?_
      rw [hm.uncomputed] at hcomputed
      cases hcomputed
  | borrowed hnamed hunknown _ _ =>
      refine h.pass hw ⟨rfl, rfl, rfl, rfl⟩ ?_ fun m hm => hm.known hunknown
      intro entry hentry
      rcases KeyVars.mem_insert hentry with hold | rfl
      · exact .inl hold
      · refine .inr fun _ => ⟨hkey, ?_, fun m hm => (hm.known hunknown).elim⟩
        simp [Entity.isDeferred, Schema.kindOf_of_unknown hnamed hunknown, Kind.isArray]
  | unknown _ hunknown _ =>
      exact h.pass hw ⟨rfl, rfl, rfl, rfl⟩ (fun _ => .inl) fun m hm => hm.known hunknown
  | deferred hnamed hproperty harray hdefer =>
      refine h.pass hw ⟨rfl, rfl, rfl, rfl⟩ (fun _ => .inl) fun m hm => ?_
      have hundeferred := hm.undeferred
      simp [Entity.isDeferred, Schema.kindOf_of_property hnamed hproperty, harray, hdefer,
        hm.uncomputed] at hundeferred
  | unmapped _ _ hmapping =>
      refine h.pass hw ⟨rfl, rfl, rfl, rfl⟩ (fun _ => .inl) fun m hm => ?_
      rw [hm.mapping] at hmapping
      cases hmapping
  | property hnamed huncomputed hproperty hnow hmapping =>
      refine h.property ⟨hkey, hnamed, by simp [hproperty], huncomputed, ?_, hmapping⟩ hw
      rw [Bool.and_comm] at hnow
      simp [Entity.isDeferred, Schema.kindOf_of_property hnamed hproperty, hnow]

/-- A condition that brings no triple adds at most filters that read nothing. -/
theorem pass_condition (h : Placed ns options e selected done d) {c : Condition}
    (hw : Widens d.fragment d'.fragment)
    (hsame : d'.fragment.mandatory = d.fragment.mandatory ∧
      d'.fragment.optional = d.fragment.optional ∧ d'.fragment.props = d.fragment.props ∧
      d'.fragment.hidden = d.fragment.hidden)
    (hfilters : ∀ g ∈ d'.fragment.filters, g ∈ d.fragment.filters ∨ g.openVars = [])
    (hidle : ∀ m, ¬ e.Narrows ns options key m) :
    Placed ns options e selected (done ++ [(key, c)]) d' := by
  obtain ⟨hmandatory, hoptional, hprops, hhidden⟩ := hsame
  have hdone : done.keys ⊆ Assoc.keys (done ++ [(key, c)]) := by
    simp [Assoc.keys]
  refine h.grow hw hdone (fun t ht => .inl (hmandatory ▸ ht)) (fun t ht => .inl (hoptional ▸ ht))
    (fun entry hentry => .inl (hprops ▸ hentry)) (fun entry hentry => .inl (hhidden ▸ hentry))
    (fun g hg => (hfilters g hg).imp_right fun hclosed x hx => ?_) (fun _ => .inl) ?_
  · simp [hclosed] at hx
  · intro k hk
    rcases List.mem_append.mp (by simpa [Assoc.keys] using hk : k ∈ done.keys ++ [key]) with hk | hk
    · exact .inl hk
    · obtain rfl := List.mem_singleton.mp hk
      exact .inr fun m hm => (hidle m hm).elim

/-- A key that a condition narrows has its triple among the mandatory ones, and its variable
is hidden. -/
theorem hide (h : Placed ns options e selected done d) {c : Condition} {m : Mapping}
    (hcondition : (key, c) ∈ e.conditions) (hnew : key ∉ done.keys) (hnarrows : c.narrows = true)
    (hmapping : e.mapping? ns key = some m)
    (hext : d.fragment.Extends (addHidden ns e key m c d).fragment) :
    Placed ns options e selected (done ++ [(key, c)]) (addHidden ns e key m c d) := by
  obtain ⟨x, hx⟩ : ∃ x, (varFor e key (some c) d.alloc).1 = x := ⟨_, rfl⟩
  have hmandatory : (addHidden ns e key m c d).fragment.mandatory =
      d.fragment.mandatory ++ [m.triple d.fragment.subject (.var x)] := hx ▸ rfl
  have hhidden : (addHidden ns e key m c d).fragment.hidden = d.fragment.hidden.insert key x :=
    hx ▸ rfl
  have hfilters : (addHidden ns e key m c d).fragment.filters = d.fragment.filters ++
      (conditionFilter ns e (addHidden ns e key m c d).fragment.subject m key x c
        (varFor e key (some c) d.alloc).2).1.toList := hx ▸ rfl
  have hsame : (addHidden ns e key m c d).fragment.optional = d.fragment.optional ∧
      (addHidden ns e key m c d).fragment.props = d.fragment.props ∧
      (addHidden ns e key m c d).fragment.typeVar = d.fragment.typeVar := ⟨rfl, rfl, rfl⟩
  have hsubject := hext.subject
  generalize addHidden ns e key m c d = d' at *
  have hheld : x ∈ d'.fragment.hidden.vars := by
    rw [hhidden]
    exact List.mem_map.mpr ⟨(key, x), KeyVars.mem_insert_iff.mpr (.inl ⟨rfl, rfl⟩), rfl⟩
  have htriple : m.triple d'.fragment.subject (.var x) ∈ d'.fragment.mandatory := by
    simp [hmandatory, hsubject]
  have hw : Widens d.fragment d'.fragment := by
    refine { hext with typeVar := hsame.2.2, hidden := fun y hy => ?_ }
    rw [hhidden]
    exact KeyVars.mem_vars_insert hy fun hold => (hnew (h.hidden _ hold).1).elim
  have hkeys : Assoc.keys (done ++ [(key, c)]) = done.keys ++ [key] := by
    simp [Assoc.keys]
  refine h.grow hw (hkeys ▸ List.subset_append_left _ _) ?mandatory
    (fun t ht => .inl (hsame.1 ▸ ht)) (fun entry hentry => .inl (hsame.2.1 ▸ hentry))
    ?hidden ?filters (fun _ => .inl) ?narrowed
  case mandatory =>
    intro t ht
    rw [hmandatory] at ht
    rcases List.mem_append.mp ht with hold | hlast
    · exact .inl hold
    · obtain rfl := List.mem_singleton.mp hlast
      exact .inr (hsubject ▸ .narrowed hcondition hnarrows hmapping hheld)
  case hidden =>
    intro entry hentry
    rw [hhidden] at hentry
    rcases KeyVars.mem_insert hentry with hold | rfl
    · exact .inl hold
    · refine .inr ⟨by simp [hkeys], fun m' hm' => ?_⟩
      obtain rfl : m = m' := Option.some.inj (hmapping.symm.trans hm')
      exact htriple
  case filters =>
    intro g hg
    rw [hfilters] at hg
    refine (List.mem_append.mp hg).imp_right fun hlast => ?_
    exact backed_conditionFilter hmapping (fun _ => htriple) (Option.mem_toList.mp hlast)
  case narrowed =>
    intro k hk
    rw [hkeys] at hk
    refine (List.mem_append.mp hk).imp_right fun hlast m' hm' => ?_
    obtain rfl := List.mem_singleton.mp hlast
    obtain rfl : m = m' := Option.some.inj (hmapping.symm.trans hm'.mapping)
    exact ⟨x, hheld, htriple⟩

/-- One more condition. -/
theorem restricts (h : Placed ns options e selected done d) {c : Condition}
    (hcondition : (key, c) ∈ e.conditions) (hown : e.condition? key = some c)
    (hnew : key ∉ done.keys) (hstep : Restricts ns config e key d c d') :
    Placed ns options e selected (done ++ [(key, c)]) d' := by
  have hext := hstep.extends
  cases hstep with
  | keyword hkey =>
      refine h.pass_condition ⟨hext, rfl, List.Subset.refl _⟩ ⟨rfl, rfl, rfl, rfl⟩
        (fun _ => .inl) fun m hm => ?_
      rw [hm.named] at hkey
      cases hkey
  | selected hselected =>
      refine h.pass_condition ⟨hext, rfl, List.Subset.refl _⟩ ⟨rfl, rfl, rfl, rfl⟩
        (fun _ => .inl) fun m hm => ?_
      obtain ⟨x, hx⟩ := Option.isSome_iff_exists.mp hselected
      obtain ⟨hkey, hundeferred, -⟩ := h.props (key, x) (Assoc.mem_of_get? hx) hm.named
      rcases hm.unfetched with hunselected | hdeferred
      · exact hunselected hkey
      · rw [hundeferred] at hdeferred
        cases hdeferred
  | unmapped _ hmapping =>
      refine h.pass_condition ⟨hext, rfl, List.Subset.refl _⟩ ⟨rfl, rfl, rfl, rfl⟩
        (fun _ => .inl) fun m hm => ?_
      rw [hm.mapping] at hmapping
      cases hmapping
  | computed =>
      refine h.pass_condition ⟨hext, rfl, List.Subset.refl _⟩ ⟨rfl, rfl, rfl, rfl⟩
        (fun _ => .inl) fun m hm => ?_
      have hnarrowed := hm.narrowed
      simp [hown, Condition.narrows] at hnarrowed
  | existence _ _ hrelation =>
      refine h.pass_condition ⟨hext, rfl, List.Subset.refl _⟩ ⟨rfl, rfl, rfl, rfl⟩ ?_ fun m hm => ?_
      · intro g hg
        refine (List.mem_append.mp hg).imp_right fun hlast => ?_
        obtain rfl := List.mem_singleton.mp hlast
        exact Mapping.openVars_test _ _ _ _
      · have hnarrowed := hm.narrowed
        simp [hown, Condition.narrows, hrelation] at hnarrowed
  | hidden _ hmapping hnarrows => exact h.hide hcondition hnew hnarrows hmapping hext

end Placed

end Draft

/-- A triple with a variable other than the subject tells its property. -/
theorem Mapping.eq_of_triple_eq {m m' : Mapping} {subject : Term} {x y : Var}
    (hx : subject ≠ .var x) (h : m.triple subject (.var x) = m'.triple subject (.var y)) :
    m = m' := by
  obtain ⟨iri, reverse⟩ := m
  obtain ⟨iri', reverse'⟩ := m'
  cases reverse <;> cases reverse' <;>
    simp only [triple, if_true, Bool.false_eq_true, if_false] at h <;>
    injection h with hsubject hpredicate hobject
  · cases hpredicate
    rfl
  · exact (hx hobject.symm).elim
  · exact (hx hsubject.symm).elim
  · cases hpredicate
    rfl

/-- Where the triple of a key stands in a fragment: `here`, also with the variable that a map
knows for the key, and not `elsewhere` with a variable that is neither the subject nor the
type. -/
structure Fragment.Places (f : Fragment) (key : String) (m : Mapping) (vars : KeyVars)
    (here elsewhere : List Triple) : Prop where
  present : ∃ x, m.triple f.subject (.var x) ∈ here
  own : ∀ x, vars.var? key = some x → m.triple f.subject (.var x) ∈ here
  apart : ∀ x, f.subject ≠ .var x → f.typeVar ≠ some x →
    m.triple f.subject (.var x) ∉ elsewhere

namespace Entity

variable {ns : Namespaces} {config : Config} {options : CompileOptions} {e : Entity}
  {a a' : Allocator} {f : Fragment} {key : String} {m : Mapping} {x : Var}

/-- All that is said of drafts holds of the fragment, after every key and every condition. -/
theorem compile_placed (h : e.compile ns config options a = .ok (f, a'))
    (hconditions : e.conditions.keys.Nodup) :
    Draft.Placed ns options e e.selectedKeys e.conditions ⟨a', f⟩ := by
  obtain ⟨d, hd, rfl, rfl⟩ := compile_stages
    (fun selected d => Draft.Placed ns options e selected [] d)
    (fun done d => Draft.Placed ns options e e.selectedKeys done d)
    (fun _ _ _ _ hstep => Draft.Placed.opening hstep)
    (fun _ _ hkey _ _ hd hstep => hd.selects hkey hstep)
    (fun _ hd => hd)
    (fun done entry rest heq d d' hd hstep => by
      have hmem : entry ∈ e.conditions := heq ▸ List.mem_append_right _ List.mem_cons_self
      have hnodup : (done.keys ++ entry.1 :: Assoc.keys rest).Nodup := by
        simpa [heq, Assoc.keys] using hconditions
      have hnew : entry.1 ∉ done.keys := fun hold =>
        (List.nodup_append.mp hnodup).2.2 _ hold _ List.mem_cons_self rfl
      exact hd.restricts hmem (Assoc.get?_of_mem hconditions hmem) hnew hstep)
    h
  have hw : Draft.Widens d.fragment { d.fragment with selected := e.selectedKeys } :=
    { Fragment.Extends.selected d.fragment e.selectedKeys with
      typeVar := rfl
      hidden := List.Subset.refl _ }
  exact hd.grow hw (List.Subset.refl _) (fun _ => .inl) (fun _ => .inl) (fun _ => .inl)
    (fun _ => .inl) (fun _ => .inl) (fun _ => .inl) (fun _ => .inl)

/-- A mandatory triple of a property comes from a key with this property. -/
theorem source_of_required (hconditions : e.conditions.keys.Nodup)
    (hsubject : f.subject ≠ .var x) (htype : f.typeVar ≠ some x)
    (h : Draft.Required ns options e f (m.triple f.subject (.var x))) :
    ∃ key, e.mapping? ns key = some m ∧
      (e.Fetches ns options key m ∧ Draft.mustHave e key = true ∨
        (e.condition? key).any Condition.narrows = true ∧ x ∈ f.hidden.vars) := by
  generalize ht : m.triple f.subject (.var x) = t at h
  cases h with
  | @typed y htyped =>
      cases hreverse : m.reverse with
      | true =>
          have hfirst := congrArg Triple.subject ht
          simp only [Mapping.triple, hreverse, if_true, Triple.ofType] at hfirst
          exact (hsubject hfirst.symm).elim
      | false =>
          have hlast := congrArg Triple.object ht
          simp only [Mapping.triple, hreverse, Triple.ofType] at hlast
          cases hlast
          exact (htype htyped).elim
  | classified class_ =>
      cases hreverse : m.reverse with
      | true =>
          have hfirst := congrArg Triple.subject ht
          simp only [Mapping.triple, hreverse, if_true, exactType, Triple.ofType] at hfirst
          exact (hsubject hfirst.symm).elim
      | false =>
          have hlast := congrArg Triple.object ht
          simp [Mapping.triple, hreverse, exactType, Triple.ofType] at hlast
  | @fetched key _ y hfetched hmust =>
      obtain rfl := Mapping.eq_of_triple_eq hsubject ht
      exact ⟨key, hfetched.mapping, .inl ⟨hfetched, hmust⟩⟩
  | @narrowed key c _ y hcondition hnarrows hmapping hhidden =>
      obtain rfl := Mapping.eq_of_triple_eq hsubject ht
      obtain rfl := Mapping.triple_var_inj ht
      have hown : e.condition? key = some c := Assoc.get?_of_mem hconditions hcondition
      exact ⟨key, hmapping, .inr ⟨by simp [hown, hnarrows], hhidden⟩⟩

/-- **Narrow first, widen last.**  In the fragment of an entity whose keys have different
predicates, the triple of a selected key of the schema is a mandatory one if the key is required
or a condition narrows it, and one that may be missing otherwise.  A key that is narrowed and not
fetched, since it is not selected or an array, has its triple among the mandatory ones.  And
whatever a filter reads outside of its tests for existence is the subject, or stands in the
mandatory triple of a key. -/
theorem compile_places (h : e.compile ns config options a = .ok (f, a'))
    (hconditions : e.conditions.keys.Nodup)
    (hdistinct : e.HasDistinctPredicates ns) :
    (∀ key m, e.Fetches ns options key m →
      (Draft.mustHave e key = true → f.Places key m f.props f.mandatory f.optional) ∧
      (Draft.mustHave e key = false → f.Places key m f.props f.optional f.mandatory)) ∧
    (∀ key m, e.Narrows ns options key m → f.Places key m f.hidden f.mandatory f.optional) ∧
    ∀ g ∈ f.filters, ∀ x ∈ g.openVars, f.subject = .var x ∨
      ∃ key m, e.mapping? ns key = some m ∧ m.triple f.subject (.var x) ∈ f.mandatory := by
  have hd := compile_placed h hconditions
  -- what may be missing belongs to a fetched key that need not be there
  have hdesired : ∀ key m x, e.mapping? ns key = some m → f.subject ≠ .var x →
      m.triple f.subject (.var x) ∈ f.optional →
      e.Fetches ns options key m ∧ Draft.mustHave e key = false := by
    intro key m x hmapping hsubject htriple
    obtain ⟨key', m', y, hfetched, hmust, ht⟩ := hd.optional _ htriple
    obtain rfl := Mapping.eq_of_triple_eq hsubject ht
    obtain rfl := hdistinct _ _ _ hmapping hfetched.mapping
    exact ⟨hfetched, hmust⟩
  have hown : ∀ key m x, e.Fetches ns options key m → f.props.var? key = some x →
      m.triple f.subject (.var x) ∈ Draft.place e key f := by
    intro key m x hfetched hx
    exact (hd.props (key, x) (Assoc.mem_of_get? hx) hfetched.named).2.2 m hfetched
  refine ⟨fun key m hfetched => ⟨fun hmust => ?_, fun hmust => ?_⟩, fun key m hnarrows => ?_,
    hd.filters⟩
  · have hplace : Draft.place e key f = f.mandatory := by
      simp [Draft.place, hmust]
    refine ⟨hplace ▸ hd.fetched key hfetched.selected m hfetched,
      fun x hx => hplace ▸ hown key m x hfetched hx, fun x hsubject _ htriple => ?_⟩
    obtain ⟨-, hfalse⟩ := hdesired key m x hfetched.mapping hsubject htriple
    rw [hmust] at hfalse
    cases hfalse
  · have hplace : Draft.place e key f = f.optional := by
      simp [Draft.place, hmust]
    refine ⟨hplace ▸ hd.fetched key hfetched.selected m hfetched,
      fun x hx => hplace ▸ hown key m x hfetched hx, fun x hsubject htype htriple => ?_⟩
    obtain ⟨key', hmapping, hsource⟩ :=
      source_of_required hconditions hsubject htype (hd.mandatory _ htriple)
    obtain rfl := hdistinct _ _ _ hfetched.mapping hmapping
    rcases hsource with ⟨-, htrue⟩ | ⟨hnarrowed, -⟩
    · rw [hmust] at htrue
      cases htrue
    · simp [Draft.mustHave, hnarrowed] at hmust
  · have hdone : key ∈ e.conditions.keys := by
      cases hc : e.condition? key with
      | none => simpa [hc] using hnarrows.narrowed
      | some c => exact List.mem_map_of_mem (mem_of_condition? hc)
    obtain ⟨y, -, hy⟩ := hd.narrowed key hdone m hnarrows
    refine ⟨⟨y, hy⟩, fun x hx => ?_, fun x hsubject _ htriple => ?_⟩
    · exact (hd.hidden (key, x) (Assoc.mem_of_get? hx)).2 m hnarrows.mapping
    · obtain ⟨hfetched, -⟩ := hdesired key m x hnarrows.mapping hsubject htriple
      rcases hnarrows.unfetched with hunselected | hdeferred
      · exact hunselected hfetched.selected
      · rw [hfetched.undeferred] at hdeferred
        cases hdeferred

/-- A person of a city that is not asked for, who is grown up and has a certain tag. -/
def filteredPerson : Entity where
  index := 0
  schema :=
    { targetClass := some "ex:Person"
      context := [("name", .str "ex:name"), ("nick", .str "ex:nick"), ("age", .str "ex:age"),
        ("city", .str "ex:city"), ("tags", .str "ex:tag")]
      properties := [("name", { type := some "string" }), ("nick", { type := some "string" }),
        ("age", { type := some "integer" }), ("city", { type := some "string" }),
        ("tags", { type := some "array" })]
      required := ["name"] }
  conditions := [("city", .value (.str "Rome")), ("age", .related .after [.num (.int 18)]),
    ("tags", .value (.str "vip"))]
  selection := some ["name", "nick", "age", "tags"]

/-- Only the nick name, of which nothing is said, may be missing. -/
theorem compile_places_filteredPerson :
    let person : Term := .var ⟨"eIri0"⟩
    let property (local_ : String) (x : Var) : Triple :=
      ⟨person, .iri ("http://example.org/" ++ local_), .var x⟩
    ∃ f a', filteredPerson.compile .exampleOrg {} {} .empty = .ok (f, a') ∧
      f.mandatory = [exactType person "http://example.org/Person", property "name" ⟨"name0"⟩,
        property "age" ⟨"age0"⟩, property "city" ⟨"city0"⟩, property "tag" ⟨"tags0"⟩] ∧
      f.optional = [property "nick" ⟨"nick0"⟩] ∧
      f.Places "name" ⟨"http://example.org/name", false⟩ f.props f.mandatory f.optional ∧
      f.Places "nick" ⟨"http://example.org/nick", false⟩ f.props f.optional f.mandatory ∧
      f.Places "city" ⟨"http://example.org/city", false⟩ f.hidden f.mandatory f.optional ∧
      f.Places "tags" ⟨"http://example.org/tag", false⟩ f.hidden f.mandatory f.optional := by
  intro person property
  refine ⟨_, _, rfl, rfl, rfl, ?_⟩
  have hconditions : filteredPerson.conditions.keys.Nodup := by decide
  have hdistinct : filteredPerson.HasDistinctPredicates .exampleOrg := by decide +kernel
  obtain ⟨hfetched, hnarrowed, -⟩ :=
    @compile_places .exampleOrg {} {} filteredPerson .empty _ _ rfl hconditions hdistinct
  refine ⟨(hfetched "name" _ ⟨?_, rfl, ?_, rfl, rfl, rfl⟩).1 rfl,
    (hfetched "nick" _ ⟨?_, rfl, ?_, rfl, rfl, rfl⟩).2 rfl,
    hnarrowed "city" _ ⟨rfl, .inl ?_, rfl, rfl⟩, hnarrowed "tags" _ ⟨rfl, .inr rfl, rfl, rfl⟩⟩
  all_goals decide

/-- A thing whose context gives the identity a predicate. -/
def identifiedThing : Entity where
  index := 0
  schema :=
    { targetClass := some "ex:Thing"
      context := [("@id", .str "ex:identifier"), ("name", .str "ex:name")]
      properties := [("@id", { type := some "string", format := some "iri" }),
        ("name", { type := some "string" })] }

/-- The identity is selected, is in the schema and has a predicate, and no triple has it. -/
theorem identity_has_no_triple :
    "@id" ∈ identifiedThing.selectedKeys ∧ identifiedThing.schema.hasProperty "@id" = true ∧
      identifiedThing.mapping? .exampleOrg "@id" =
        some ⟨"http://example.org/identifier", false⟩ ∧
      identifiedThing.HasDistinctPredicates .exampleOrg ∧
      (identifiedThing.condition? "@id").isNone ∧
      ∃ f a', identifiedThing.compile .exampleOrg {} {} .empty = .ok (f, a') ∧
        ∀ t ∈ f.mandatory ++ f.optional, t.predicate ≠ .iri "http://example.org/identifier" := by
  refine ⟨by decide, rfl, rfl, by decide +kernel, rfl, _, _, rfl, ?_⟩
  decide +kernel

end Entity

end ObjectGraph
