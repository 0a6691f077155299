import Mathlib.Data.Nat.Init
import ObjectGraph.Decode.Graph

/-!
# Linking from the back

The objects of the entities are copied into each other by a loop that is still
changing them: it takes the last entity first and writes its objects as they are at
that moment into those of every other one.  `assembled` says what should be written:
each entity with all those behind it linked in, and each of these assembled itself.

It is what is written.  After any number of turns the objects of an entity are its own
with those of the entities that had their turn linked in, all of them assembled
(`getElem?_linkedFrom`); the root is assembled itself (`head?_linkAll`), and so is
every entity that no one in front of it, but for the root, is linked into
(`linkAll_eq_assembled`).
-/

namespace ObjectGraph.Decode

variable {ns : Namespaces} {entities : List Scoped} {decoded linked : List (List Decoded)}
  {own : List (Scoped × List Decoded)} {i j m : Nat}

/-- An object with the objects of other entities linked in, those of the last one
first. -/
def linkLater (ns : Namespaces) (s : Scoped) (later : List (Scoped × List Decoded))
    (d : Decoded) : Decoded :=
  later.foldr (fun (q, children) d => linkInto ns q.part.entity children s d) d

@[simp] theorem linkLater_nil (ns : Namespaces) (s : Scoped) : linkLater ns s [] = id := rfl

@[simp] theorem linkLater_cons (ns : Namespaces) (s q : Scoped) (children : List Decoded)
    (later : List (Scoped × List Decoded)) :
    linkLater ns s ((q, children) :: later) =
      linkInto ns q.part.entity children s ∘ linkLater ns s later := rfl

/-- The objects of each entity with those of all entities behind it linked in, which
are assembled themselves. -/
def assembled (ns : Namespaces) : List (Scoped × List Decoded) → List (Scoped × List Decoded)
  | [] => []
  | (s, ds) :: rest => (s, ds.map (linkLater ns s (assembled ns rest))) :: assembled ns rest

/-- Every entity is assembled. -/
@[simp] theorem length_assembled (ns : Namespaces) (own : List (Scoped × List Decoded)) :
    (assembled ns own).length = own.length := by
  induction own with
  | nil => rfl
  | cons e rest ih => simp [assembled, ih]

/-- The objects of an entity are its own with those of the entities behind it linked
in. -/
theorem getElem?_assembled (ns : Namespaces) (own : List (Scoped × List Decoded)) (i : Nat) :
    (assembled ns own)[i]? = own[i]?.map fun (s, ds) =>
      (s, ds.map (linkLater ns s ((assembled ns own).drop (i + 1)))) := by
  induction own generalizing i with
  | nil => simp [assembled]
  | cons e rest ih =>
      cases i with
      | zero => rfl
      | succ i => simpa [assembled] using ih i

/-- The entities from a place on, assembled, without the one at a place. -/
def turns (ns : Namespaces) (own : List (Scoped × List Decoded)) (m i : Nat) :
    List (Scoped × List Decoded) :=
  ((((assembled ns own).drop m).zipIdx m).filter (·.2 != i)).map (·.1)

/-- In front of a place nothing is left out. -/
theorem turns_of_lt (own : List (Scoped × List Decoded)) (hi : i < m) :
    turns ns own m i = (assembled ns own).drop m := by
  have hall : ∀ e ∈ ((assembled ns own).drop m).zipIdx m, (e.2 != i) = true := by
    rintro ⟨e, k⟩ he
    have hk := (List.mem_zipIdx he).1
    simp only [bne_iff_ne]
    omega
  unfold turns
  rw [List.filter_eq_self.mpr hall, List.zipIdx_map_fst]

/-- Behind the last entity there is nobody left. -/
theorem turns_of_length_le (hm : own.length ≤ m) (i : Nat) : turns ns own m i = [] := by
  unfold turns
  rw [List.drop_eq_nil_of_le (by rwa [length_assembled])]
  rfl

/-- The turn of an entity comes in front of those behind it. -/
theorem turns_eq {q : Scoped} {children : List Decoded}
    (hm : (assembled ns own)[m]? = some (q, children)) :
    turns ns own m i =
      if m = i then turns ns own (m + 1) i else (q, children) :: turns ns own (m + 1) i := by
  obtain ⟨hlt, hget⟩ := List.getElem?_eq_some_iff.mp hm
  unfold turns
  rw [List.drop_eq_getElem_cons hlt, hget, List.zipIdx_cons, List.filter_cons]
  by_cases h : m = i <;> simp [h]

/-! ## The loop -/

/-- The objects of all entities when those from a place on have been linked. -/
def linkedFrom (ns : Namespaces) (entities : List Scoped) (decoded : List (List Decoded))
    (m : Nat) : List (List Decoded) :=
  ((List.range decoded.length).drop m).reverse.foldl (linkEntity ns entities) decoded

/-- Nothing is linked at the start. -/
theorem linkedFrom_of_le (hm : decoded.length ≤ m) :
    linkedFrom ns entities decoded m = decoded := by
  unfold linkedFrom
  rw [List.drop_eq_nil_of_le (by simpa using hm)]
  rfl

/-- One more entity is linked. -/
theorem linkedFrom_eq (hm : m < decoded.length) :
    linkedFrom ns entities decoded m =
      linkEntity ns entities (linkedFrom ns entities decoded (m + 1)) m := by
  have hdrop : (List.range decoded.length).drop m =
      m :: (List.range decoded.length).drop (m + 1) := by
    rw [List.drop_eq_getElem_cons (by simpa using hm), List.getElem_range]
  unfold linkedFrom
  rw [hdrop, List.reverse_cons, List.foldl_append]
  rfl

/-- Linking an entity goes into the objects of every other one, each by itself. -/
theorem getElem?_linkEntity {q : Scoped} {children : List Decoded}
    (hj : (entities.zip linked)[j]? = some (q, children)) (i : Nat) :
    (entities.zip (linkEntity ns entities linked j))[i]? =
      (entities.zip linked)[i]?.map fun (s, ds) =>
        (s, if i = j then ds else ds.map (linkInto ns q.part.entity children s)) := by
  rw [List.getElem?_zip_eq_some] at hj
  unfold linkEntity
  rw [hj.1, hj.2]
  cases hi : (entities.zip linked)[i]? with
  | none =>
      rw [List.getElem?_eq_none_iff, List.length_zip] at hi
      rw [Option.map_none, List.getElem?_eq_none_iff]
      simpa using hi
  | some e =>
      obtain ⟨s, ds⟩ := e
      rw [Option.map_some, List.getElem?_zip_eq_some]
      exact ⟨(List.getElem?_zip_eq_some.mp hi).1, by simp [List.getElem?_zipIdx, hi]⟩

/-- **What is linked is assembled.**  When the entities from a place on have had their
turn, the objects of each one are its own with those of the others among them linked
in, which are assembled. -/
theorem getElem?_linkedFrom (hlength : entities.length = decoded.length) (hm : m ≤ decoded.length)
    (i : Nat) :
    (entities.zip (linkedFrom ns entities decoded m))[i]? =
      (entities.zip decoded)[i]?.map fun (s, ds) =>
        (s, ds.map (linkLater ns s (turns ns (entities.zip decoded) m i))) := by
  have hzip : (entities.zip decoded).length = decoded.length := by simp [hlength]
  induction hm using Nat.decreasingInduction generalizing i with
  | self =>
      rw [linkedFrom_of_le (Nat.le_refl _), turns_of_length_le (by omega)]
      simp
  | of_succ m hm ih =>
      -- the entity whose turn it is has all those behind it linked in
      have hturn : (entities.zip (linkedFrom ns entities decoded (m + 1)))[m]? =
          (assembled ns (entities.zip decoded))[m]? := by
        rw [ih, turns_of_lt _ (Nat.lt_succ_self m), getElem?_assembled]
      obtain ⟨⟨q, children⟩, hchildren⟩ : ∃ e, (assembled ns (entities.zip decoded))[m]? = some e :=
        ⟨_, List.getElem?_eq_getElem (by rw [length_assembled]; omega)⟩
      rw [hchildren] at hturn
      rw [linkedFrom_eq hm, getElem?_linkEntity hturn, ih, Option.map_map, turns_eq hchildren]
      congr 1
      funext e
      obtain ⟨s, ds⟩ := e
      by_cases h : i = m
      · simp [h]
      · simp [h, Ne.symm h]

/-- At the end the objects of each entity are its own with those of all others but the
root linked in. -/
theorem getElem?_linkAll (hlength : entities.length = decoded.length) (i : Nat) :
    (entities.zip (linkAll ns entities decoded))[i]? =
      (entities.zip decoded)[i]?.map fun (s, ds) =>
        (s, ds.map (linkLater ns s (turns ns (entities.zip decoded) 1 i))) := by
  by_cases hempty : 1 ≤ decoded.length
  · exact getElem?_linkedFrom hlength hempty i
  · have hnil : decoded = [] := by simpa using hempty
    subst hnil
    have hnone : entities = [] := by simpa using hlength
    simp [hnone]

/-- **The root is assembled.** -/
theorem head?_linkAll (hlength : entities.length = decoded.length) :
    (entities.zip (linkAll ns entities decoded)).head? =
      (assembled ns (entities.zip decoded)).head? := by
  rw [List.head?_eq_getElem?, List.head?_eq_getElem?, getElem?_linkAll hlength,
    getElem?_assembled, turns_of_lt _ Nat.zero_lt_one]

/-! ## Entities without a link -/

/-- An entity that has no link to another one leaves its objects as they are. -/
theorem linkInto_of_unlinked {q : Entity} {s : Scoped}
    (hforward : forwardKey? q s.part.fragment = none)
    (hbackward : backwardKeys ns q s.part.fragment = []) (children : List Decoded) :
    linkInto ns q children s = id := by
  funext d
  unfold linkInto
  rw [hforward, hbackward]
  rfl

/-- Turns of entities that have no link to an entity change nothing in it. -/
theorem linkLater_turns {s : Scoped} (hm : m ≤ i + 1)
    (hlinks : ∀ j q children, (assembled ns own)[j]? = some (q, children) → m ≤ j → j < i →
      forwardKey? q.part.entity s.part.fragment = none ∧
        backwardKeys ns q.part.entity s.part.fragment = []) :
    linkLater ns s (turns ns own m i) = linkLater ns s ((assembled ns own).drop (i + 1)) := by
  induction hm using Nat.decreasingInduction with
  | self => rw [turns_of_lt own (Nat.lt_succ_self i)]
  | of_succ m hm ih =>
      rw [← ih fun j q children hj hle hlt => hlinks j q children hj (by omega) hlt]
      cases hturn : (assembled ns own)[m]? with
      | none =>
          rw [List.getElem?_eq_none_iff, length_assembled] at hturn
          rw [turns_of_length_le hturn, turns_of_length_le (by omega)]
      | some e =>
          obtain ⟨q, children⟩ := e
          rw [turns_eq hturn]
          split
          · rfl
          next hne =>
            obtain ⟨hforward, hbackward⟩ := hlinks m q children hturn (Nat.le_refl m) (by omega)
            rw [linkLater_cons, linkInto_of_unlinked hforward hbackward]
            rfl

/-- **Every entity ends assembled** if no entity, but for the root, is linked into one
behind it. -/
theorem linkAll_eq_assembled (hlength : entities.length = decoded.length)
    (hlinks : ∀ i j s q, entities[i]? = some s → entities[j]? = some q → 0 < j → j < i →
      forwardKey? q.part.entity s.part.fragment = none ∧
        backwardKeys ns q.part.entity s.part.fragment = []) :
    entities.zip (linkAll ns entities decoded) = assembled ns (entities.zip decoded) := by
  apply List.ext_getElem?
  intro i
  rw [getElem?_linkAll hlength, getElem?_assembled]
  cases hi : (entities.zip decoded)[i]? with
  | none => rfl
  | some e =>
      obtain ⟨s, ds⟩ := e
      have hs : entities[i]? = some s := (List.getElem?_zip_eq_some.mp hi).1
      rw [Option.map_some, Option.map_some]
      dsimp only
      rw [linkLater_turns (show 1 ≤ i + 1 by omega)]
      intro j q children hj hpos hlt
      rw [getElem?_assembled] at hj
      obtain ⟨⟨q', own⟩, hown, heq⟩ := Option.map_eq_some_iff.mp hj
      obtain ⟨rfl, -⟩ := Prod.mk.inj heq
      exact hlinks i j s q' hs (List.getElem?_zip_eq_some.mp hown).1 hpos hlt

end ObjectGraph.Decode
