import ObjectGraph.Proofs.Decode.Ordering

/-!
# Sorting

Sorting keeps what is in a list (`sortBy_perm`).  Where the comparison is a preorder on the
list, the result is in order (`PreorderOn.pairwise_sortBy`), and those that tie with each
other stay in the order in which they came (`PreorderOn.filter_sortBy`).  Without a preorder
there may be no order that the result could be in.
-/

namespace ObjectGraph.Decode

open Json (Object)

variable {α β : Type} {cmp : α → α → Ordering} {xs sorted : List α} {a c : α}

/-! ## What is kept -/

/-- Nothing is lost or added where an item is inserted. -/
theorem insertSorted_perm (precedes : α → α → Bool) (a : α) (sorted : List α) :
    (insertSorted precedes a sorted).Perm (a :: sorted) := by
  induction sorted with
  | nil => exact .refl _
  | cons b rest ih =>
      unfold insertSorted
      split
      · exact (ih.cons b).trans (.swap a b rest)
      · exact .refl _

/-- Sorting keeps what is in a list. -/
theorem sortBy_perm (precedes : α → α → Bool) (xs : List α) : (sortBy precedes xs).Perm xs := by
  have hfold : ∀ rest sorted : List α,
      (rest.foldl (fun sorted a => insertSorted precedes a sorted) sorted).Perm
        (rest ++ sorted) := by
    intro rest
    induction rest with
    | nil => exact fun sorted => .refl sorted
    | cons a rest ih =>
        intro sorted
        refine (ih (insertSorted precedes a sorted)).trans ?_
        exact ((insertSorted_perm precedes a sorted).append_left rest).trans List.perm_middle
  exact (List.reverse_perm _).trans (by simpa using hfold xs [])

/-- Sorting returns the same objects in some order. -/
theorem sortObjects_perm (keys : List OrderKey) (root : Fragment)
    (objects : List (α × Object)) : (sortObjects keys root objects).Perm objects := by
  unfold sortObjects
  dsimp only
  split
  · exact .refl _
  · exact sortBy_perm _ _

/-- Items can be inserted before or after they are mapped, if they are compared by what they are
mapped to. -/
theorem map_insertSorted (f : α → β) (precedes : β → β → Bool) (a : α) (sorted : List α) :
    (insertSorted (fun a b => precedes (f a) (f b)) a sorted).map f =
      insertSorted precedes (f a) (sorted.map f) := by
  induction sorted with
  | nil => rfl
  | cons b rest ih =>
      rw [List.map_cons, insertSorted, insertSorted]
      split
      · rw [List.map_cons, ih]
      · rfl

/-- What goes along with the sorted is moved with it. -/
theorem map_sortBy (f : α → β) (precedes : β → β → Bool) (xs : List α) :
    (sortBy (fun a b => precedes (f a) (f b)) xs).map f = sortBy precedes (xs.map f) := by
  have hfold : ∀ rest sorted : List α,
      (rest.foldl (fun sorted a =>
          insertSorted (fun a b => precedes (f a) (f b)) a sorted) sorted).map f =
        (rest.map f).foldl (fun sorted b => insertSorted precedes b sorted) (sorted.map f) := by
    intro rest
    induction rest with
    | nil => exact fun sorted => rfl
    | cons a rest ih =>
        intro sorted
        rw [List.foldl_cons, ih, map_insertSorted, List.map_cons, List.foldl_cons]
  unfold sortBy
  rw [List.map_reverse, hfold, List.map_nil]

/-- Where nothing precedes anything, the list stays as it is. -/
theorem sortBy_of_ties (xs : List α) : sortBy (fun _ _ => false) xs = xs := by
  have hinsert : ∀ (a : α) (sorted : List α),
      insertSorted (fun _ _ => false) a sorted = a :: sorted := by
    intro a sorted
    cases sorted <;> simp [insertSorted]
  unfold sortBy
  simp [hinsert]

/-- The objects of a root are sorted by its keys, with what goes along with them. -/
theorem sortObjects_map_snd (keys : List OrderKey) (root : Fragment)
    (objects : List (α × Object)) :
    (sortObjects keys root objects).map (·.2) =
      sortBy (fun a b => compareObjects (keys.map (resolveKey root)) a b == .lt)
        (objects.map (·.2)) := by
  unfold sortObjects
  dsimp only
  split
  next hkeys =>
    rw [List.isEmpty_iff.mp hkeys]
    exact (sortBy_of_ties _).symm
  next => exact map_sortBy (·.2) (fun a b => compareObjects _ a b == .lt) objects

/-! ## The order -/

namespace PreorderOn

/-- Inserting puts an element in its place; the list starts with the last in order. -/
theorem pairwise_insertSorted (h : PreorderOn cmp xs) (ha : a ∈ xs)
    (hmem : ∀ b ∈ sorted, b ∈ xs) (hsorted : sorted.Pairwise fun b c => (cmp c b).isLE) :
    (insertSorted (fun a b => cmp a b == .lt) a sorted).Pairwise fun b c => (cmp c b).isLE := by
  induction sorted with
  | nil => exact List.pairwise_singleton _ _
  | cons b rest ih =>
      obtain ⟨hb, hrest⟩ := List.pairwise_cons.mp hsorted
      obtain ⟨hbxs, hrestxs⟩ := List.forall_mem_cons.mp hmem
      unfold insertSorted
      split
      next hlt =>
        have hab : cmp a b = .lt := by simpa using hlt
        refine List.pairwise_cons.mpr ⟨?_, ih hrestxs hrest⟩
        intro c hc
        rcases List.mem_cons.mp ((insertSorted_perm _ a rest).mem_iff.mp hc) with rfl | hc
        · rw [hab]
          rfl
        · exact hb c hc
      next hge =>
        have hba : (cmp b a).isLE := by
          rw [h.swap hbxs ha]
          cases horder : cmp a b with
          | lt => simp [horder] at hge
          | eq | gt => rfl
        refine List.pairwise_cons.mpr ⟨?_, hsorted⟩
        intro c hc
        rcases List.mem_cons.mp hc with rfl | hc
        · exact hba
        · exact h.trans (hrestxs c hc) hbxs ha (hb c hc) hba

/-- **The sorted list** is in order. -/
theorem pairwise_sortBy (h : PreorderOn cmp xs) :
    (sortBy (fun a b => cmp a b == .lt) xs).Pairwise fun a b => (cmp a b).isLE := by
  have hfold : ∀ rest sorted : List α, (∀ a ∈ rest, a ∈ xs) → (∀ a ∈ sorted, a ∈ xs) →
      sorted.Pairwise (fun b c => (cmp c b).isLE) →
        (rest.foldl (fun sorted a => insertSorted (fun a b => cmp a b == .lt) a sorted)
          sorted).Pairwise fun b c => (cmp c b).isLE := by
    intro rest
    induction rest with
    | nil => exact fun sorted _ _ hsorted => hsorted
    | cons a rest ih =>
        intro sorted hrest hmem hsorted
        obtain ⟨ha, hrest⟩ := List.forall_mem_cons.mp hrest
        refine ih _ hrest ?_ (h.pairwise_insertSorted ha hmem hsorted)
        intro b hb
        rcases List.mem_cons.mp ((insertSorted_perm _ a sorted).mem_iff.mp hb) with rfl | hb
        · exact ha
        · exact hmem b hb
  exact List.pairwise_reverse.mpr (hfold xs [] (fun _ ha => ha) (by simp) .nil)

/-- Inserting goes past nothing that ties with the same. -/
theorem filter_insertSorted (h : PreorderOn cmp xs) (ha : a ∈ xs) (hc : c ∈ xs)
    (hmem : ∀ b ∈ sorted, b ∈ xs) :
    (insertSorted (fun a b => cmp a b == .lt) a sorted).filter (cmp c · == .eq) =
      (a :: sorted).filter (cmp c · == .eq) := by
  induction sorted with
  | nil => rfl
  | cons b rest ih =>
      obtain ⟨hb, hrest⟩ := List.forall_mem_cons.mp hmem
      unfold insertSorted
      split
      next hlt =>
        have hab : cmp a b = .lt := by simpa using hlt
        -- `a` goes past `b`, so that they cannot both tie with `c`.
        rw [List.filter_cons, ih hrest]
        by_cases hca : cmp c a = .eq
        · have hcb : cmp c b ≠ .eq := by
            intro hcb
            rw [h.tie ha hb hc hca hcb] at hab
            cases hab
          simp [hca, hcb]
        · simp [hca, List.filter_cons]
      next => rfl

/-- **Ties** stay in the order in which they came. -/
theorem filter_sortBy (h : PreorderOn cmp xs) (hc : c ∈ xs) :
    (sortBy (fun a b => cmp a b == .lt) xs).filter (cmp c · == .eq) =
      xs.filter (cmp c · == .eq) := by
  have hfold : ∀ rest sorted : List α, (∀ a ∈ rest, a ∈ xs) → (∀ a ∈ sorted, a ∈ xs) →
      (rest.foldl (fun sorted a => insertSorted (fun a b => cmp a b == .lt) a sorted)
          sorted).filter (cmp c · == .eq) =
        (rest.reverse ++ sorted).filter (cmp c · == .eq) := by
    intro rest
    induction rest with
    | nil => exact fun sorted _ _ => rfl
    | cons a rest ih =>
        intro sorted hrest hmem
        obtain ⟨ha, hrest⟩ := List.forall_mem_cons.mp hrest
        have hinserted : ∀ b ∈ insertSorted (fun a b => cmp a b == .lt) a sorted, b ∈ xs := by
          intro b hb
          rcases List.mem_cons.mp ((insertSorted_perm _ a sorted).mem_iff.mp hb) with rfl | hb
          · exact ha
          · exact hmem b hb
        rw [List.foldl_cons, ih _ hrest hinserted, List.filter_append,
          h.filter_insertSorted ha hc hmem, ← List.filter_append, List.reverse_cons,
          List.append_assoc, List.singleton_append]
  unfold sortBy
  rw [List.filter_reverse, hfold xs [] (fun _ ha => ha) (by simp), List.append_nil,
    List.filter_reverse, List.reverse_reverse]

end PreorderOn

end ObjectGraph.Decode
