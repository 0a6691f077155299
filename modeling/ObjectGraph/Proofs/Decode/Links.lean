import ObjectGraph.Decode.Graph
import ObjectGraph.Proofs.Compile.SharedNames

/-!
# Links between entities

Two entities are tied by a name if the compiler gave them one variable for it: a key of
one has the variable that is the subject of the other, by the other's condition on the
identity or by the key's own (`Part.Ties`).

Reading a graph looks the names up as they were written, and finds exactly the ties by
names that are their own variables: in the links along which objects are nested
(`forwardKey?_eq_some_iff`, `mem_backwardKeys_iff`, `linked_iff`), in those by which an
entity takes its context (`parentLink?_isSome_iff`), and in those that its nodes must
carry (`mem_linksOf_iff`).
-/

namespace ObjectGraph

open Allocator (IsName nameOf varOf)
open Sparql (Var Term)

/-- An entity hangs under another one by a name: a key of the other one has the variable
of its identity, or one of its keys that of the other one's subject. -/
inductive Part.Ties (ns : Namespaces) (q p : Part) (name : String) : Prop
  | identity {key : String} (hname : q.entity.condition? "@id" = some (.shared name))
      (hkey : key ≠ "@id") (hentry : (key, varOf name) ∈ p.fragment.props.entries) :
      Ties ns q p name
  | key {key : String} {m : Mapping} (hname : (key, name) ∈ q.entity.sharedConditions)
      (hkey : key ≠ "@id") (hmapping : q.entity.mapping? ns key = some m)
      (hforward : m.reverse = false) (hsubject : p.fragment.subject = .var (varOf name)) :
      Ties ns q p name

/-- The name of an identity is what its condition shares. -/
theorem Entity.identityName?_eq_some_iff {e : Entity} {name : String} :
    e.identityName? = some name ↔ e.condition? "@id" = some (.shared name) := by
  unfold identityName?
  cases e.condition? "@id" with
  | none => simp
  | some c => cases c <;> simp [Condition.sharedName?]

/-- Two entities are tied or not by what is written in them. -/
theorem Part.exists_ties_iff {ns : Namespaces} {q p : Part} :
    (∃ name, q.Ties ns p name) ↔
      (∃ name ∈ q.entity.identityName?, ∃ entry ∈ p.fragment.props.entries,
        entry.1 ≠ "@id" ∧ entry.2 = varOf name) ∨
      ∃ entry ∈ q.entity.sharedConditions, entry.1 ≠ "@id" ∧
        p.fragment.subject = .var (varOf entry.2) ∧
          ∃ m ∈ q.entity.mapping? ns entry.1, m.reverse = false := by
  constructor
  · rintro ⟨name, hties⟩
    cases hties with
    | identity hname hkey hentry =>
        exact .inl ⟨name, Entity.identityName?_eq_some_iff.mpr hname, _, hentry, hkey, rfl⟩
    | key hname hkey hmapping hforward hsubject =>
        exact .inr ⟨_, hname, hkey, hsubject, _, hmapping, hforward⟩
  · rintro (⟨name, hname, ⟨key, x⟩, hentry, hkey, rfl⟩ |
      ⟨⟨key, name⟩, hname, hkey, hsubject, m, hmapping, hforward⟩)
    · exact ⟨name, .identity (Entity.identityName?_eq_some_iff.mp hname) hkey hentry⟩
    · exact ⟨name, .key hname hkey hmapping hforward hsubject⟩

instance (ns : Namespaces) (q p : Part) : Decidable (∃ name, q.Ties ns p name) :=
  decidable_of_iff _ Part.exists_ties_iff.symm

/-- The key of an entity that has the variable of a name: a selected one, or else a hidden
one. -/
inductive Fragment.Stores (f : Fragment) (name key : String) : Prop
  | selected (h : (key, varOf name) ∈ f.props.entries) : Stores f name key
  | hidden (hselected : varOf name ∉ f.props.vars) (h : (key, varOf name) ∈ f.hidden.entries) :
      Stores f name key

namespace Decode

variable {ns : Namespaces} {q : Entity} {p : Fragment} {key predicate : String}

/-- The variable of a name that is one already is spelled like it. -/
theorem varOf_of_isName {name : String} (h : IsName name) : varOf name = ⟨name⟩ :=
  congrArg Var.mk (Allocator.nameOf_eq_self_iff.mpr h)

/-- The key of a name is found if the name is its own variable. -/
theorem filter_key?_eq_some_iff (hp : p.WellNamed) {name : String} :
    (p.props.key? name).filter (· ≠ "@id") = some key ↔
      key ≠ "@id" ∧ IsName name ∧ (key, varOf name) ∈ p.props.entries := by
  rw [Option.filter_eq_some_iff, KeyVars.key?_eq_some_iff, decide_eq_true_iff]
  constructor
  · rintro ⟨hmem, hkey⟩
    have hname : IsName name := hp.selected _ hmem
    exact ⟨hkey, hname, by rwa [varOf_of_isName hname]⟩
  · rintro ⟨hkey, hname, hmem⟩
    exact ⟨by rwa [varOf_of_isName hname] at hmem, hkey⟩

/-- **Forward links** are found by the names that are their own variables. -/
theorem forwardKey?_eq_some_iff (hp : p.WellNamed) :
    forwardKey? q p = some key ↔ key ≠ "@id" ∧ ∃ name,
      q.condition? "@id" = some (.shared name) ∧ IsName name ∧
        (key, varOf name) ∈ p.props.entries := by
  unfold forwardKey?
  split
  next name hc =>
    rw [filter_key?_eq_some_iff hp]
    simp [hc]
  next hunnamed =>
    constructor
    · intro h
      cases h
    · rintro ⟨-, name, hc, -⟩
      exact (hunnamed name hc).elim

/-- The subject has a name that is looked up if it is the variable of the name. -/
theorem subjectVar?_eq_some_iff (hp : p.WellNamed) {name : String} :
    p.subjectVar?.map (·.name) = some name ↔ IsName name ∧ p.subject = .var (varOf name) := by
  have hvar : p.subjectVar?.map (·.name) = some name ↔ p.subject = .var ⟨name⟩ := by
    unfold Fragment.subjectVar?
    cases hs : p.subject with
    | var x => cases x; simp [Term.asVar?]
    | iri | literal | blank => simp [Term.asVar?]
  rw [hvar]
  constructor
  · intro hs
    have hname : IsName name := hp.subject _ hs
    exact ⟨hname, by rwa [varOf_of_isName hname]⟩
  · rintro ⟨hname, hs⟩
    rwa [varOf_of_isName hname] at hs

/-- **Backward links** are found by the names that are their own variables. -/
theorem mem_backwardKeys_iff (hp : p.WellNamed) :
    (key, predicate) ∈ backwardKeys ns q p ↔ key ≠ "@id" ∧ ∃ name m,
      (key, name) ∈ q.sharedConditions ∧ IsName name ∧ p.subject = .var (varOf name) ∧
        q.mapping? ns key = some m ∧ m.reverse = false ∧ m.iri = predicate := by
  unfold backwardKeys
  rw [List.mem_filterMap]
  constructor
  · rintro ⟨⟨k, name⟩, hname, h⟩
    dsimp only at h
    split at h
    · cases h
    next hother =>
      rw [not_or, not_not, subjectVar?_eq_some_iff hp] at hother
      obtain ⟨m, hm, heq⟩ := Option.map_eq_some_iff.mp h
      obtain ⟨rfl, rfl⟩ := Prod.mk.inj heq
      obtain ⟨hmapping, hforward⟩ := Option.filter_eq_some_iff.mp hm
      exact ⟨hother.1, name, m, hname, hother.2.1, hother.2.2, hmapping, by simpa using hforward,
        rfl⟩
  · rintro ⟨hkey, name, m, hname, hown, hs, hmapping, hforward, rfl⟩
    refine ⟨(key, name), hname, ?_⟩
    have hother : ¬ (key = "@id" ∨ p.subjectVar?.map (·.name) ≠ some name) := by
      rw [not_or, not_not, subjectVar?_eq_some_iff hp]
      exact ⟨hkey, hown, hs⟩
    dsimp only
    rw [if_neg hother, hmapping, Option.filter_some_pos (by simpa using hforward)]
    rfl

/-- **Nesting** links an entity into another one exactly along the ties by names that are
their own variables. -/
theorem linked_iff {q p : Part} (hp : p.fragment.WellNamed) :
    (∃ key, forwardKey? q.entity p.fragment = some key) ∨
        (∃ key predicate, (key, predicate) ∈ backwardKeys ns q.entity p.fragment) ↔
      ∃ name, IsName name ∧ q.Ties ns p name := by
  simp only [forwardKey?_eq_some_iff hp, mem_backwardKeys_iff hp]
  constructor
  · rintro (⟨key, hkey, name, hc, hname, hentry⟩ |
      ⟨key, predicate, hkey, name, m, hc, hname, hs, hmapping, hforward, rfl⟩)
    · exact ⟨name, hname, .identity hc hkey hentry⟩
    · exact ⟨name, hname, .key hc hkey hmapping hforward hs⟩
  · rintro ⟨name, hname, hties⟩
    cases hties with
    | identity hc hkey hentry => exact .inl ⟨_, hkey, name, hc, hname, hentry⟩
    | key hc hkey hmapping hforward hs =>
        exact .inr ⟨_, _, hkey, name, _, hc, hname, hs, hmapping, hforward, rfl⟩

/-! ## Contexts -/

/-- An entity takes its context from one that it hangs under. -/
theorem parentLink?_ties {q : Part} {earlier : List Scoped} {link : ParentLink}
    (hearlier : ∀ s ∈ earlier, s.part.fragment.WellNamed)
    (h : parentLink? ns earlier q.entity = some link) :
    ∃ s, earlier[link.parent]? = some s ∧ ∃ name, IsName name ∧ q.Ties ns s.part name := by
  unfold parentLink? at h
  dsimp only at h
  rw [Option.orElse_eq_orElse, Option.orElse_eq_or] at h
  rcases Option.or_eq_some_iff.mp h with h | ⟨-, h⟩
  · split at h
    next name hc =>
      obtain ⟨⟨s, i⟩, hs, hlink⟩ := List.exists_of_findSome?_eq_some h
      obtain ⟨key, hkey, rfl⟩ := Option.map_eq_some_iff.mp hlink
      have hat : earlier[i]? = some s := List.mem_zipIdx_iff_getElem?.mp hs
      obtain ⟨hid, hname, hentry⟩ :=
        (filter_key?_eq_some_iff (hearlier s (List.mem_of_getElem? hat))).mp hkey
      exact ⟨s, hat, name, hname, .identity hc hid hentry⟩
    next => cases h
  · obtain ⟨⟨key, name⟩, hc, h⟩ := List.exists_of_findSome?_eq_some h
    dsimp only at h
    split at h
    next => cases h
    next hid =>
      split at h
      next m hm =>
        obtain ⟨hmapping, hforward⟩ := Option.filter_eq_some_iff.mp hm
        obtain ⟨⟨s, i⟩, hs, hsubject⟩ := List.exists_of_findSome?_eq_some h
        dsimp only at hsubject
        split at hsubject
        next hsame =>
          have hat : earlier[i]? = some s := List.mem_zipIdx_iff_getElem?.mp hs
          obtain ⟨hname, hs⟩ :=
            (subjectVar?_eq_some_iff (hearlier s (List.mem_of_getElem? hat))).mp hsame
          obtain rfl := Option.some.inj hsubject
          exact ⟨s, hat, name, hname, .key hc hid hmapping (by simpa using hforward) hs⟩
        next => cases hsubject
      next => cases h

/-- **Contexts** hang under each other exactly along the ties by names that are their own
variables. -/
theorem parentLink?_isSome_iff {q : Part} {earlier : List Scoped}
    (hearlier : ∀ s ∈ earlier, s.part.fragment.WellNamed) :
    (parentLink? ns earlier q.entity).isSome ↔
      ∃ s ∈ earlier, ∃ name, IsName name ∧ q.Ties ns s.part name := by
  constructor
  · intro h
    obtain ⟨link, hlink⟩ := Option.isSome_iff_exists.mp h
    obtain ⟨s, hs, hties⟩ := parentLink?_ties hearlier hlink
    exact ⟨s, List.mem_of_getElem? hs, hties⟩
  · rintro ⟨s, hs, name, hname, hties⟩
    obtain ⟨i, hi⟩ := List.mem_iff_getElem?.mp hs
    have hplace : (s, i) ∈ earlier.zipIdx := List.mem_zipIdx_iff_getElem?.mpr hi
    unfold parentLink?
    dsimp only
    rw [Option.orElse_eq_orElse, Option.orElse_eq_or, Option.isSome_or, Bool.or_eq_true]
    cases hties with
    | @identity key hc hid hentry =>
        refine .inl ?_
        rw [hc]
        refine List.findSome?_isSome_iff.mpr ⟨(s, i), hplace, ?_⟩
        dsimp only
        rw [(filter_key?_eq_some_iff (hearlier s hs)).mpr ⟨hid, hname, hentry⟩]
        rfl
    | @key key m hc hid hmapping hforward hsubject =>
        refine .inr (List.findSome?_isSome_iff.mpr ⟨(key, name), hc, ?_⟩)
        dsimp only
        rw [if_neg hid, hmapping, Option.filter_some_pos (by simpa using hforward)]
        refine List.findSome?_isSome_iff.mpr ⟨(s, i), hplace, ?_⟩
        dsimp only
        rw [if_pos ((subjectVar?_eq_some_iff (hearlier s hs)).mpr ⟨hname, hsubject⟩)]
        rfl

/-! ## Nodes -/

/-- What a node must carry to stand for an entity: the properties of its own keys that share
a variable, those of the keys under which the others look its identity up, and those of the
keys with which they name its subject. -/
inductive Required (ns : Namespaces) (parts : List Part) (j : Nat) (p : Part) : Link → Prop
  | own {key name : String} {m : Mapping} (hname : (key, name) ∈ p.entity.sharedConditions)
      (hkey : key ≠ "@id") (hmapping : p.entity.mapping? ns key = some m) :
      Required ns parts j p (.ofOwnKey m)
  | identity {name key : String} {other : Part} {m : Mapping}
      (hname : ("@id", name) ∈ p.entity.sharedConditions) (hother : other ∈ others parts j)
      (hkey : (other.fragment.props.key? name <|> other.fragment.hidden.key? name) = some key)
      (hmapping : other.entity.mapping? ns key = some m) : Required ns parts j p (.ofOtherKey m)
  | subject {x : Var} {key : String} {other : Part} {m : Mapping}
      (hsubject : p.fragment.subject = .var x) (hother : other ∈ others parts j)
      (hname : (key, x.name) ∈ other.entity.sharedConditions) (hkey : key ≠ "@id")
      (hmapping : other.entity.mapping? ns key = some m) : Required ns parts j p (.ofOtherKey m)

/-- The links that an entity asks for by its own keys, and by the keys of others that have the
variable of its identity. -/
theorem mem_ownLinks {parts : List Part} {j : Nat} {p : Part} {l : Link} :
    l ∈ ownLinks ns parts j p ↔ ∃ key name, (key, name) ∈ p.entity.sharedConditions ∧
      ((key ≠ "@id" ∧ ∃ m, p.entity.mapping? ns key = some m ∧ l = .ofOwnKey m) ∨
        (key = "@id" ∧ ∃ other ∈ others parts j, ∃ k m,
          (other.fragment.props.key? name <|> other.fragment.hidden.key? name) = some k ∧
            other.entity.mapping? ns k = some m ∧ l = .ofOtherKey m)) := by
  unfold ownLinks
  rw [List.mem_flatMap, Prod.exists]
  refine exists_congr fun key => exists_congr fun name => and_congr_right fun _ => ?_
  dsimp only
  split
  next hkey => simp [hkey, eq_comm]
  next hkey =>
    obtain rfl := not_not.mp hkey
    rw [List.mem_filterMap]
    simp only [ne_eq, not_true_eq_false, false_and, true_and, false_or]
    refine exists_congr fun other => and_congr_right fun _ => ?_
    cases (other.fragment.props.key? name <|> other.fragment.hidden.key? name) with
    | none => simp
    | some k => simp [eq_comm]

/-- The links that an entity asks for because others name its subject. -/
theorem mem_otherLinks {parts : List Part} {j : Nat} {p : Part} {l : Link} :
    l ∈ otherLinks ns parts j p ↔ ∃ x, p.fragment.subject = .var x ∧
      ∃ other ∈ others parts j, ∃ key, (key, x.name) ∈ other.entity.sharedConditions ∧
        key ≠ "@id" ∧ ∃ m, other.entity.mapping? ns key = some m ∧ l = .ofOtherKey m := by
  unfold otherLinks Fragment.subjectVar?
  cases p.fragment.subject with
  | iri | literal | blank => simp [Term.asVar?]
  | var x =>
      simp only [Term.asVar?, List.mem_flatMap, List.mem_filterMap, Prod.exists, Term.var.injEq,
        exists_eq_left']
      refine exists_congr fun other => and_congr_right fun _ => exists_congr fun key => ?_
      constructor
      · rintro ⟨name, hname, hl⟩
        split at hl
        next hkey =>
          obtain ⟨hkey, rfl⟩ := hkey
          obtain ⟨m, hmapping, rfl⟩ := Option.map_eq_some_iff.mp hl
          exact ⟨hname, hkey, m, hmapping, rfl⟩
        next => cases hl
      · rintro ⟨hname, hkey, m, hmapping, rfl⟩
        exact ⟨x.name, hname, by rw [if_pos ⟨hkey, rfl⟩, hmapping]; rfl⟩

/-- The links of an entity are what is required of its nodes. -/
theorem mem_linksOf {parts : List Part} {j : Nat} {p : Part} {l : Link} :
    l ∈ linksOf ns parts j p ↔ Required ns parts j p l := by
  unfold linksOf
  rw [List.mem_append, mem_ownLinks, mem_otherLinks]
  constructor
  · rintro (⟨key, name, hname, ⟨hkey, m, hmapping, rfl⟩ |
      ⟨rfl, other, hother, k, m, hk, hmapping, rfl⟩⟩ |
      ⟨x, hsubject, other, hother, key, hname, hkey, m, hmapping, rfl⟩)
    · exact .own hname hkey hmapping
    · exact .identity hname hother hk hmapping
    · exact .subject hsubject hother hname hkey hmapping
  · intro h
    cases h with
    | own hname hkey hmapping => exact .inl ⟨_, _, hname, .inl ⟨hkey, _, hmapping, rfl⟩⟩
    | identity hname hother hkey hmapping =>
        exact .inl ⟨_, _, hname, .inr ⟨rfl, _, hother, _, _, hkey, hmapping, rfl⟩⟩
    | subject hsubject hother hname hkey hmapping =>
        exact .inr ⟨_, hsubject, _, hother, _, hname, hkey, _, hmapping, rfl⟩

/-- An entity may be asked for a property by one of its own keys, by a key of another one
that has the variable of its identity, or by one that has that of its subject. -/
inductive Asked (ns : Namespaces) (parts : List Part) (j : Nat) (p : Part) : Link → Prop
  | own {key name : String} {m : Mapping} (hname : (key, name) ∈ p.entity.sharedConditions)
      (hkey : key ≠ "@id") (hmapping : p.entity.mapping? ns key = some m) :
      Asked ns parts j p (.ofOwnKey m)
  | identity {name key : String} {other : Part} {m : Mapping}
      (hname : ("@id", name) ∈ p.entity.sharedConditions) (hown : IsName name)
      (hother : other ∈ others parts j) (hkey : other.fragment.Stores name key)
      (hmapping : other.entity.mapping? ns key = some m) : Asked ns parts j p (.ofOtherKey m)
  | subject {name key : String} {other : Part} {m : Mapping}
      (hsubject : p.fragment.subject = .var (varOf name)) (hown : IsName name)
      (hother : other ∈ others parts j) (hname : (key, name) ∈ other.entity.sharedConditions)
      (hkey : key ≠ "@id") (hmapping : other.entity.mapping? ns key = some m) :
      Asked ns parts j p (.ofOtherKey m)

/-- A name is looked up among the selected keys and then among the hidden ones. -/
theorem stores_iff (hp : p.WellNamed) {name : String} :
    (p.props.key? name <|> p.hidden.key? name) = some key ↔ IsName name ∧ p.Stores name key := by
  have hnone : p.props.key? name = none ↔ ∀ k, (k, ⟨name⟩) ∉ p.props.entries := by
    simp only [Option.eq_none_iff_forall_not_mem, Option.mem_def,
      KeyVars.key?_eq_some_iff]
  rw [Option.orElse_eq_orElse, Option.orElse_eq_or, Option.or_eq_some_iff,
    KeyVars.key?_eq_some_iff, KeyVars.key?_eq_some_iff, hnone]
  constructor
  · rintro (hmem | ⟨hfree, hmem⟩)
    · have hname : IsName name := hp.selected _ hmem
      exact ⟨hname, .selected (by rwa [varOf_of_isName hname])⟩
    · have hname : IsName name := hp.hidden _ hmem
      rw [← varOf_of_isName hname] at hfree hmem
      refine ⟨hname, .hidden (fun hvar => ?_) hmem⟩
      obtain ⟨⟨k, x⟩, hk, rfl⟩ := List.mem_map.mp hvar
      exact hfree k hk
  · rintro ⟨hname, hstores⟩
    rw [← varOf_of_isName hname]
    cases hstores with
    | selected hmem => exact .inl hmem
    | hidden hfree hmem =>
        exact .inr ⟨fun k hk => hfree (List.mem_map_of_mem (f := (·.2)) hk), hmem⟩

/-- **Nodes** are asked for the links that the ties by names that are their own variables
give, and for all that an entity has a name for. -/
theorem mem_linksOf_iff {parts : List Part} (hparts : ∀ p ∈ parts, p.fragment.WellNamed)
    {j : Nat} {p : Part} (hp : p.fragment.WellNamed) {l : Link} :
    l ∈ linksOf ns parts j p ↔ Asked ns parts j p l := by
  have hothers : ∀ other ∈ others parts j, other.fragment.WellNamed := fun other hother =>
    hparts other (List.mem_of_mem_eraseIdx hother)
  rw [mem_linksOf]
  constructor
  · intro h
    cases h with
    | own hname hkey hmapping => exact .own hname hkey hmapping
    | identity hname hother hkey hmapping =>
        obtain ⟨hown, hstores⟩ := (stores_iff (hothers _ hother)).mp hkey
        exact .identity hname hown hother hstores hmapping
    | subject hsubject hother hname hkey hmapping =>
        have hown : IsName _ := hp.subject _ hsubject
        exact .subject (by rwa [varOf_of_isName hown]) hown hother hname hkey hmapping
  · intro h
    cases h with
    | own hname hkey hmapping => exact .own hname hkey hmapping
    | identity hname hown hother hkey hmapping =>
        exact .identity hname hother ((stores_iff (hothers _ hother)).mpr ⟨hown, hkey⟩) hmapping
    | subject hsubject hown hother hname hkey hmapping =>
        rw [varOf_of_isName hown] at hsubject
        exact .subject hsubject hother hname hkey hmapping

end Decode

end ObjectGraph
