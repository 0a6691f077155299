import ObjectGraph.Proofs.Compile.Subject
import ObjectGraph.Proofs.Sparql.Renaming

/-!
# What a step does to a draft

A draft grows by one selected key or one condition at a time.  `Selects` and
`Restricts` list everything such a step can do, with the guards under which it
does it, so that a fact about drafts is proved by one case for each entry of the
list (`addSelected_selects`, `addCondition_restricts`) and holds of every fragment
by `compile_draft`.

Of the allocator a step keeps whatever fresh and shared names keep (`Lasting`), so
such a fact lasts through the fragments of a whole collection (`Lasting.compile`).
Filters and types take fresh names only (`Enduring`).
-/

namespace ObjectGraph

open Sparql (Var Term Triple Expression Pattern)

/-- The test of a relation that only asks whether a property has some value. -/
def Mapping.test (m : Mapping) (relation : Relation) (subject : Term) (witness : Var) :
    Expression :=
  let group := [Pattern.triples [m.triple subject (.var witness)]]
  if relation = .exist then .exist group else .notExist group

/-- A test is no triple pattern that could lead a group. -/
theorem Mapping.test_lead (m : Mapping) (relation : Relation) (subject : Term) (witness : Var) :
    (m.test relation subject witness).lead? = none := by
  unfold test
  split <;> rfl

namespace Draft

/-- A test for existence takes a fresh variable as its witness. -/
theorem existence_eq (e : Entity) (subject : Term) (m : Mapping) (key : String)
    (relation : Relation) (a : Allocator) :
    existence e subject m key relation a =
      (m.test relation subject (a.fresh (key ++ "Exist" ++ toString e.index)).1,
        (a.fresh (key ++ "Exist" ++ toString e.index)).2) := rfl

/-- The filter on the variable of a key compares it, or is a test for existence with a
fresh witness. -/
theorem conditionFilter_cases (ns : Namespaces) (e : Entity) (subject : Term) (m : Mapping)
    (key : String) (x : Var) (c : Condition) (a : Allocator) :
    ((conditionFilter ns e subject m key x c a).2 = a ∧
      ∀ g, (conditionFilter ns e subject m key x c a).1 = some g → g.lead? = some x) ∨
    ∃ relation, conditionFilter ns e subject m key x c a =
      (some (m.test relation subject (a.fresh (key ++ "Exist" ++ toString e.index)).1),
        (a.fresh (key ++ "Exist" ++ toString e.index)).2) := by
  unfold conditionFilter
  cases c with
  | shared | computed => exact .inl ⟨rfl, nofun⟩
  | value v => exact .inl ⟨rfl, fun g hg => Filter.equality_lead ns _ hg⟩
  | related relation values =>
      dsimp only
      split
      · exact .inr ⟨relation, rfl⟩
      · exact .inl ⟨rfl, fun g hg => Filter.related_lead ns _ hg⟩

/-- A predicate of a computed key uses the names that a term would use. -/
theorem bindPredicate_alloc (ns : Namespaces) (position : String) (a : Allocator) :
    (bindPredicate ns position a).2 = (bindTerm ns position a).2 := by
  unfold bindPredicate bindTerm
  cases Sparql.sharedName? position <;> rfl

/-- All that the type of an entity can do to a draft. -/
inductive Types (ns : Namespaces) (e : Entity) (d : Draft) : Draft → Prop
  | resolved {type : MostSpecificType} {a : Allocator} (hresolve : e.resolveType = true)
      (htype : MostSpecificType.compile d.fragment.subject (e.class? ns) e.index d.alloc =
        (type, a)) :
      Types ns e d
        { alloc := a
          fragment :=
            { d.fragment with
              mandatory := d.fragment.mandatory ++ [type.triple]
              filters := d.fragment.filters ++ type.filters
              props := d.fragment.props.insert "@type" type.typeVar
              typeVar := some type.typeVar } }
  | exact {class_ : String} (hclass : e.class? ns = some class_) :
      Types ns e d
        { d with
          fragment.mandatory :=
            d.fragment.mandatory ++ [exactType d.fragment.subject class_] }
  | untyped (hclass : e.class? ns = none) : Types ns e d d

/-- Adding the type does one of the listed things. -/
theorem addType_types (ns : Namespaces) (e : Entity) (d : Draft) :
    Types ns e d (addType ns e d) := by
  unfold addType
  cases hresolve : e.resolveType with
  | true => exact .resolved hresolve rfl
  | false =>
      rw [if_neg (by decide)]
      cases hclass : e.class? ns with
      | none => exact .untyped hclass
      | some class_ => exact .exact hclass

section

variable (ns : Namespaces) (e : Entity) (key : String) (m : Mapping) (d : Draft)

/-- Whether the triple of a selected key must be there. -/
def mustHave : Bool :=
  e.schema.isRequired key || (e.condition? key).any Condition.narrows

/-- The triple of a selected key. -/
def propertyTriple : Triple :=
  m.triple d.fragment.subject (.var (varFor e key (e.condition? key) d.alloc).1)

/-- A property that an object must have is added to the mandatory patterns. -/
theorem addProperty_mandatory :
    (addProperty ns e key m d).fragment.mandatory =
      if mustHave e key then d.fragment.mandatory ++ [propertyTriple e key m d]
      else d.fragment.mandatory := rfl

/-- Every other property is added to the optional patterns. -/
theorem addProperty_optional :
    (addProperty ns e key m d).fragment.optional =
      if mustHave e key then d.fragment.optional
      else d.fragment.optional ++ [propertyTriple e key m d] := rfl

end

/-- All that adding a selected key can do to a draft. -/
inductive Selects (ns : Namespaces) (options : CompileOptions) (e : Entity) (key : String)
    (d : Draft) : Draft → Prop
  | identity {x : Var} (hkey : key = "@id") (hsubject : d.fragment.subject = .var x) :
      Selects ns options e key d { d with fragment.props := d.fragment.props.insert "@id" x }
  | pinned (hkey : key = "@id") (hsubject : d.fragment.subject.asVar? = none) :
      Selects ns options e key d d
  | type (hkey : key = "@type") : Selects ns options e key d d
  | computed (hkey : Schema.isKeyword key = false)
      (hcomputed : (e.condition? key).any Condition.isComputed = true) :
      Selects ns options e key d d
  | borrowed (hkey : Schema.isKeyword key = false) (hunknown : e.schema.property? key = none)
      (hshared : d.alloc.isShared key = true)
      (hcomputed : (e.condition? key).any Condition.isComputed = false) :
      Selects ns options e key d
        { alloc := (d.alloc.share key).2
          fragment :=
            { d.fragment with props := d.fragment.props.insert key (d.alloc.share key).1 } }
  | unknown (hkey : Schema.isKeyword key = false) (hunknown : e.schema.property? key = none)
      (hshared : d.alloc.isShared key = false) : Selects ns options e key d d
  | deferred {p : PropertySchema} (hkey : Schema.isKeyword key = false)
      (hproperty : e.schema.property? key = some p) (harray : p.kind.isArray = true)
      (hdefer : options.deferArrays = true)
      (hcomputed : (e.condition? key).any Condition.isComputed = false) :
      Selects ns options e key d { d with fragment.arrays := d.fragment.arrays ++ [key] }
  | unmapped {p : PropertySchema} (hkey : Schema.isKeyword key = false)
      (hproperty : e.schema.property? key = some p) (hmapping : e.mapping? ns key = none)
      (hnow : (p.kind.isArray && options.deferArrays) = false) :
      Selects ns options e key d d
  | property {p : PropertySchema} {m : Mapping} (hkey : Schema.isKeyword key = false)
      (hcomputed : (e.condition? key).any Condition.isComputed = false)
      (hproperty : e.schema.property? key = some p)
      (hnow : (p.kind.isArray && options.deferArrays) = false)
      (hmapping : e.mapping? ns key = some m) :
      Selects ns options e key d (addProperty ns e key m d)

/-- Adding a selected key does one of the listed things. -/
theorem addSelected_selects (ns : Namespaces) (options : CompileOptions) (e : Entity)
    (d : Draft) (key : String) :
    Selects ns options e key d (addSelected ns options e d key) := by
  unfold addSelected
  dsimp only
  split
  next hid =>
    split
    next x hs => exact .identity hid hs
    next hs =>
      refine .pinned hid ?_
      cases hterm : d.fragment.subject with
      | var x => exact (hs x hterm).elim
      | iri | literal | blank => rfl
  next hid =>
    split
    next htype => exact .type htype
    next htype =>
      have hkey : Schema.isKeyword key = false := by simp [Schema.isKeyword, hid, htype]
      split
      next hcomputed => exact .computed hkey hcomputed
      next hcomputed =>
        split
        next hproperty =>
          split
          next hshared => exact .borrowed hkey hproperty hshared (by simpa using hcomputed)
          next hshared => exact .unknown hkey hproperty (by simpa using hshared)
        next p hproperty =>
          split
          next hdefer =>
            rw [Bool.and_eq_true] at hdefer
            exact .deferred hkey hproperty hdefer.1 hdefer.2 (by simpa using hcomputed)
          next hdefer =>
            split
            next hmapping => exact .unmapped hkey hproperty hmapping (by simpa using hdefer)
            next m hmapping =>
              exact .property hkey (by simpa using hcomputed) hproperty
                (by simpa using hdefer) hmapping

/-- All that adding a condition can do to a draft. -/
inductive Restricts (ns : Namespaces) (config : Config) (e : Entity) (key : String)
    (d : Draft) : Condition → Draft → Prop
  | keyword {c : Condition} (hkey : Schema.isKeyword key = true) :
      Restricts ns config e key d c d
  | selected {c : Condition} (hselected : d.fragment.props.contains key = true) :
      Restricts ns config e key d c d
  | unmapped {c : Condition} (hcomputed : c.isComputed = false)
      (hmapping : e.mapping? ns key = none) : Restricts ns config e key d c d
  | computed {relation : BindRelation} {triples : List BindTriple}
      (hkey : Schema.isKeyword key = false)
      (hfree : d.fragment.props.contains key = false) :
      Restricts ns config e key d (.computed relation triples)
        (addComputed ns config e key relation triples d)
  | existence {m : Mapping} {relation : Relation} {values : List Json.Value}
      (hkey : Schema.isKeyword key = false) (hmapping : e.mapping? ns key = some m)
      (hrelation : relation.isExistence = true) :
      Restricts ns config e key d (.related relation values) (addExistence e key m relation d)
  | hidden {m : Mapping} {c : Condition} (hkey : Schema.isKeyword key = false)
      (hmapping : e.mapping? ns key = some m) (hnarrows : c.narrows = true) :
      Restricts ns config e key d c (addHidden ns e key m c d)

/-- Adding a condition does one of the listed things. -/
theorem addCondition_restricts (ns : Namespaces) (config : Config) (e : Entity) (d : Draft)
    (entry : String × Condition) :
    Restricts ns config e entry.1 d entry.2 (addCondition ns config e d entry) := by
  obtain ⟨key, c⟩ := entry
  by_cases hskip : Schema.isKeyword key || d.fragment.props.contains key
  · have heq : addCondition ns config e d (key, c) = d := by simp [addCondition, hskip]
    rw [heq]
    rcases Bool.or_eq_true _ _ ▸ hskip with hkey | hselected
    · exact .keyword hkey
    · exact .selected hselected
  · obtain ⟨hkey, hfree⟩ :
        Schema.isKeyword key = false ∧ d.fragment.props.contains key = false := by
      simpa [not_or] using hskip
    unfold addCondition
    dsimp only
    rw [if_neg hskip]
    cases hmapping : e.mapping? ns key with
    | none =>
        cases c with
        | computed relation triples => exact .computed hkey hfree
        | value | shared | related => exact .unmapped rfl hmapping
    | some m =>
        cases c with
        | computed relation triples => exact .computed hkey hfree
        | value | shared => exact .hidden hkey hmapping rfl
        | related relation values =>
            dsimp only
            split
            next hrelation => exact .existence hkey hmapping hrelation
            next hrelation =>
              exact .hidden hkey hmapping (by simpa [Condition.narrows] using hrelation)

/-- A draft of the subject alone, with what its identity says. -/
def opening (ns : Namespaces) (e : Entity) (subject : Term) (a : Allocator) : Draft :=
  (start ns e subject a).addIdentity ns e

/-- An entity starts out with the allocator that its subject left. -/
theorem opening_alloc (ns : Namespaces) (e : Entity) (subject : Term) (a : Allocator) :
    (opening ns e subject a).alloc = a := by
  unfold opening addIdentity
  split <;> rfl

end Draft

/-- What each step keeps of a draft and the entries so far holds after the whole run. -/
theorem Draft.foldl_stages {α : Type} {step : Draft → α → Draft}
    {holds : List α → Draft → Prop} {done : List α} {d : Draft} (hd : holds done d)
    (entries : List α)
    (hstep : ∀ before a after, done ++ entries = before ++ a :: after → ∀ d, holds before d →
      holds (before ++ [a]) (step d a)) :
    holds (done ++ entries) (entries.foldl step d) := by
  induction entries generalizing done d with
  | nil => rwa [List.append_nil]
  | cons a rest ih =>
      have hfirst := hstep done a rest rfl d hd
      rw [List.append_cons] at hstep ⊢
      exact ih hfirst hstep

namespace Entity

/-- **Facts about fragments, stage by stage.**  The invariant may speak of the keys selected
so far, and once all are, of the conditions looked at so far. -/
theorem compile_stages {ns : Namespaces} {config : Config} {options : CompileOptions}
    {e : Entity} {a a' : Allocator} {f : Fragment} (selecting : List String → Draft → Prop)
    (restricting : Assoc Condition → Draft → Prop)
    (hopen : ∀ subject b d, e.subjectTerm ns a = .ok (subject, b) →
      Draft.Types ns e (Draft.opening ns e subject b) d → selecting [] d)
    (hselect : ∀ done, ∀ key ∈ e.selectedKeys, ∀ d d', selecting done d →
      Draft.Selects ns options e key d d' → selecting (done ++ [key]) d')
    (hturn : ∀ d, selecting e.selectedKeys d → restricting [] d)
    (hrestrict : ∀ done entry rest, e.conditions = done ++ entry :: rest → ∀ d d',
      restricting done d → Draft.Restricts ns config e entry.1 d entry.2 d' →
        restricting (done ++ [entry]) d')
    (h : e.compile ns config options a = .ok (f, a')) :
    ∃ d, restricting e.conditions d ∧ f = { d.fragment with selected := e.selectedKeys } ∧
      a' = d.alloc := by
  unfold compile at h
  cases hs : e.subjectTerm ns a with
  | error x => simp [hs, bind, Except.bind] at h
  | ok made =>
      obtain ⟨subject, b⟩ := made
      simp only [hs, bind, Except.bind, Except.ok.injEq, Prod.mk.injEq] at h
      have htyped := hopen subject b _ hs (Draft.addType_types ns e _)
      have hselected := Draft.foldl_stages htyped e.selectedKeys
        (fun before key after heq d hd => by
          rw [List.nil_append] at heq
          have hkey : key ∈ e.selectedKeys := heq ▸ List.mem_append_right _ List.mem_cons_self
          exact hselect before key hkey d _ hd (Draft.addSelected_selects ns options e d key))
      refine ⟨_, ?_, h.1.symm, h.2.symm⟩
      exact Draft.foldl_stages (hturn _ hselected) e.conditions
        (fun before entry after heq d hd => hrestrict before entry after heq d _ hd
          (Draft.addCondition_restricts ns config e d entry))

/-- **Facts about fragments.**  What holds of the opening draft and is kept by the
type, each selected key and each condition of the entity holds of the fragment. -/
theorem compile_draft {ns : Namespaces} {config : Config} {options : CompileOptions}
    {e : Entity} {a a' : Allocator} {f : Fragment} (holds : Draft → Prop)
    (hopen : ∀ subject b, e.subjectTerm ns a = .ok (subject, b) →
      holds (Draft.opening ns e subject b))
    (htype : ∀ d d', holds d → Draft.Types ns e d d' → holds d')
    (hselect : ∀ key ∈ e.selectedKeys, ∀ d d', holds d →
      Draft.Selects ns options e key d d' → holds d')
    (hrestrict : ∀ entry ∈ e.conditions, ∀ d d', holds d →
      Draft.Restricts ns config e entry.1 d entry.2 d' → holds d')
    (h : e.compile ns config options a = .ok (f, a')) :
    ∃ d, holds d ∧ f = { d.fragment with selected := e.selectedKeys } ∧ a' = d.alloc :=
  compile_stages (fun _ => holds) (fun _ => holds)
    (fun subject b d hs => htype _ d (hopen subject b hs)) (fun _ => hselect) (fun _ hd => hd)
    (fun _ entry _ heq => hrestrict entry (heq ▸ List.mem_append_right _ List.mem_cons_self)) h

end Entity

/-- A fact about allocators that fresh names keep. -/
def Enduring (P : Allocator → Prop) : Prop :=
  ∀ (a : Allocator) (n : String), P a → P (a.fresh n).2

namespace Enduring

variable {P : Allocator → Prop} {ns : Namespaces} {e : Entity} {a : Allocator}

/-- What fresh draws keep joining keeps. -/
theorem join (h : Enduring P) (n : String) (ha : P a) : P (a.join n).2 := by
  rcases a.join_cases n with ⟨_, heq⟩ | ⟨_, heq⟩
  · rw [heq]; exact ha
  · rw [heq]; exact h a _ ha

theorem conditionFilter (h : Enduring P) {subject : Term} {m : Mapping} {key : String} {x : Var}
    (condition : Condition) (ha : P a) :
    P (Draft.conditionFilter ns e subject m key x condition a).2 := by
  unfold Draft.conditionFilter
  cases condition with
  | value | shared | computed => exact ha
  | related relation values =>
      dsimp only
      split
      · exact h a _ ha
      · exact ha

theorem mostSpecificType (h : Enduring P) (subject : Term) (class_ : Option String)
    (index : Nat) (ha : P a) : P (MostSpecificType.compile subject class_ index a).2 := by
  unfold MostSpecificType.compile
  cases class_ with
  | none => exact h.join _ (h.join _ ha)
  | some iri => exact h.join _ (h.join _ (h.join _ ha))

theorem types (h : Enduring P) {d d' : Draft} (hstep : Draft.Types ns e d d')
    (hd : P d.alloc) : P d'.alloc := by
  cases hstep with
  | resolved _ htype =>
      have hcompile := h.mostSpecificType d.fragment.subject (e.class? ns) e.index hd
      rw [htype] at hcompile
      exact hcompile
  | exact | untyped => exact hd

end Enduring

/-- A fact about allocators that fresh and shared names keep. -/
structure Lasting (P : Allocator → Prop) : Prop where
  fresh : Enduring P
  share : ∀ (a : Allocator) (n : String), P a → P (a.share n).2

namespace Lasting

variable {P : Allocator → Prop} {ns : Namespaces} {config : Config} {options : CompileOptions}
  {e : Entity} {a a' : Allocator} {d d' : Draft}

/-- The variable of a key is drawn or shared. -/
theorem varFor (h : Lasting P) (key : String) (condition : Option Condition) (ha : P a) :
    P (Draft.varFor e key condition a).2 := by
  unfold Draft.varFor
  split
  · exact h.share a _ ha
  · exact h.fresh.join _ ha

theorem bindTerm (h : Lasting P) (position : String) (ha : P a) :
    P (Draft.bindTerm ns position a).2 := by
  unfold Draft.bindTerm
  split
  · exact h.share a _ ha
  · exact ha

/-- The positions of tests share names or draw none. -/
theorem bindTriples (h : Lasting P) (triples : List BindTriple) (ha : P a) :
    P (Draft.bindTriples ns triples a).2 := by
  induction triples generalizing a with
  | nil => exact ha
  | cons t rest ih =>
      unfold Draft.bindTriples
      dsimp only
      rw [Draft.bindPredicate_alloc]
      exact ih (h.bindTerm t.object (h.bindTerm t.subject (h.bindTerm t.predicate ha)))

/-- The subject is drawn or shared. -/
theorem subjectTerm (h : Lasting P) {s : Term} (hs : e.subjectTerm ns a = .ok (s, a'))
    (ha : P a) : P a' := by
  rcases Entity.subjectTerm_cases hs with ⟨_, _, _, rfl⟩ | ⟨_, _, _, _, rfl⟩ | ⟨_, _, _, rfl⟩
  · exact ha
  · exact h.share _ _ ha
  · exact h.fresh.join _ ha

theorem selects (h : Lasting P) {key : String} (hstep : Draft.Selects ns options e key d d')
    (hd : P d.alloc) : P d'.alloc := by
  cases hstep with
  | identity | pinned | type | computed | unknown | deferred | unmapped => exact hd
  | borrowed => exact h.share _ _ hd
  | property =>
      unfold Draft.addProperty
      have ha : P (Draft.varFor e key (e.condition? key) d.alloc).2 := h.varFor key _ hd
      cases hc : e.condition? key with
      | none =>
          rw [hc] at ha
          exact ha
      | some c =>
          rw [hc] at ha
          exact h.fresh.conditionFilter c ha

theorem restricts (h : Lasting P) {key : String} {c : Condition}
    (hstep : Draft.Restricts ns config e key d c d') (hd : P d.alloc) : P d'.alloc := by
  cases hstep with
  | keyword | selected | unmapped => exact hd
  | computed => exact h.bindTriples _ (h.fresh.join _ hd)
  | existence => exact h.fresh _ _ hd
  | hidden => exact h.fresh.conditionFilter _ (h.varFor key _ hd)

/-- An entity draws or shares, and so keeps what both keep. -/
theorem compile (h : Lasting P) {f : Fragment}
    (hcompile : e.compile ns config options a = .ok (f, a')) (ha : P a) : P a' := by
  obtain ⟨d, hd, _, rfl⟩ := Entity.compile_draft (fun d => P d.alloc)
    (fun subject b hs => by rw [Draft.opening_alloc]; exact h.subjectTerm hs ha)
    (fun _ _ hd hstep => h.fresh.types hstep hd)
    (fun _ _ _ _ hd hstep => h.selects hstep hd)
    (fun _ _ _ _ hd hstep => h.restricts hstep hd)
    hcompile
  exact hd

/-- Sharing the names that conditions choose is no more than sharing. -/
theorem shareNames (h : Lasting P) (c : Condition) (ha : P a) : P (Entity.shareNames a c) := by
  unfold Entity.shareNames
  cases c with
  | value | related => exact ha
  | shared name => exact h.share a name ha
  | computed relation triples =>
      refine List.foldlRecOn _ _ ha ?_
      intro b hb position _
      split
      · exact h.share b _ hb
      · exact hb

/-- What sharing keeps is kept when all names are shared. -/
theorem shareAll (h : Lasting P) (entities : List Entity) (ha : P a) :
    P (Entity.shareAll entities a) := by
  refine List.foldlRecOn _ _ ha ?_
  intro b hb e _
  refine List.foldlRecOn _ _ hb ?_
  intro b hb entry _
  exact h.shareNames entry.2 hb

end Lasting

/-- Shared names stay used ones. -/
theorem Lasting.sharedUsed : Lasting Allocator.SharedUsed where
  fresh _ n h := h.fresh n
  share _ n h := h.share n

end ObjectGraph
