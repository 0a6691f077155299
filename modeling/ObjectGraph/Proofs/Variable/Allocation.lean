import ObjectGraph.Variable.Allocator

/-!
# What an allocator hands out

Names come out of an allocator in two ways: a fresh name was never used before,
and a shared one was chosen by the user.  `Draws W a v a'` says this of one
variable `v` that is taken from `a` and leaves `a'`, with the user's names given
as a predicate `W`: the name is the user's or it was free, and from now on it is
used.  `Ready W a` is the invariant behind it: all that is shared is the user's,
and all the user's names are used up before the first fresh one is asked for.
`Apart W holds a` is what draws keep up: places that hold one variable are one
place, unless the user asked for it.

The key fact is `firstFree_not_mem`: the search for an alternative takes what it
has seen out of its list, and no alternative comes twice.
-/

namespace ObjectGraph

open Sparql (Var)

namespace Allocator

/-- Numbers have different digits. -/
theorem toString_nat_inj {m n : Nat} (h : toString m = toString n) : m = n := by
  have hdigits : Nat.toDigits 10 m = Nat.toDigits 10 n := by
    rw [← Nat.toList_repr, ← Nat.toList_repr, ← Nat.toString_eq_repr, ← Nat.toString_eq_repr, h]
  have hvalue := congrArg (Nat.ofDigitChars 10 · 0) hdigits
  simpa only [Nat.ofDigitChars_ten_toDigits] using hvalue

/-- The alternatives to a name are all different. -/
theorem alternative_inj {base : String} {m n : Nat}
    (h : alternative base m = alternative base n) : m = n :=
  toString_nat_inj ((String.append_right_inj _).mp h)

/-- The search ends at an alternative that is not among the names. -/
theorem firstFree_spec (names : List String) (base : String) (n : Nat) :
    ∃ k, n ≤ k ∧ firstFree names base n = alternative base k ∧
      alternative base k ∉ names := by
  fun_induction firstFree names base n with
  | case1 names n hmem ih =>
      obtain ⟨k, hk, heq, hfree⟩ := ih
      refine ⟨k, by omega, heq, ?_⟩
      have hne : alternative base k ≠ alternative base n := by
        intro h
        have := alternative_inj h
        omega
      exact fun h => hfree ((List.mem_erase_of_ne hne).mpr h)
  | case2 names n hfree => exact ⟨n, Nat.le_refl n, rfl, hfree⟩

/-- The first free name is free. -/
theorem firstFree_not_mem (names : List String) (base : String) (n : Nat) :
    firstFree names base n ∉ names := by
  obtain ⟨k, _, heq, hfree⟩ := firstFree_spec names base n
  rw [heq]
  exact hfree

/-- A fresh name was free. -/
theorem fresh_not_mem (a : Allocator) (s : String) : (a.fresh s).1.name ∉ a.used := by
  unfold fresh
  dsimp only
  split
  · exact firstFree_not_mem a.used (nameOf s) 1
  · assumption

@[simp] theorem share_used (a : Allocator) (s : String) :
    (a.share s).2.used = nameOf s :: a.used := rfl

@[simp] theorem share_shared (a : Allocator) (s : String) :
    (a.share s).2.shared = nameOf s :: a.shared := rfl

/-- Joining either gives a shared name and changes nothing, or is a fresh draw. -/
theorem join_cases (a : Allocator) (s : String) :
    (nameOf s ∈ a.shared ∧ a.join s = (⟨nameOf s⟩, a)) ∨
      (nameOf s ∉ a.shared ∧ a.join s = a.fresh (nameOf s)) := by
  by_cases h : nameOf s ∈ a.shared
  · exact .inl ⟨h, by simp [join, isShared, h]⟩
  · exact .inr ⟨h, by simp [join, isShared, h]⟩

/-- Shared names are used names. -/
def SharedUsed (a : Allocator) : Prop :=
  ∀ n ∈ a.shared, n ∈ a.used

/-- At the start no name is shared. -/
theorem sharedUsed_empty : SharedUsed empty := by
  simp [SharedUsed, empty]

/-- A fresh name leaves the shared ones used. -/
theorem SharedUsed.fresh {a : Allocator} (h : a.SharedUsed) (s : String) :
    (a.fresh s).2.SharedUsed := by
  intro n hn
  exact List.mem_cons_of_mem _ (h n hn)

theorem SharedUsed.share {a : Allocator} (h : a.SharedUsed) (s : String) :
    (a.share s).2.SharedUsed := by
  intro n hn
  rcases List.mem_cons.mp hn with rfl | hn
  · exact List.mem_cons_self
  · exact List.mem_cons_of_mem _ (h n hn)

theorem SharedUsed.join {a : Allocator} (h : a.SharedUsed) (s : String) :
    (a.join s).2.SharedUsed := by
  rcases join_cases a s with ⟨_, heq⟩ | ⟨_, heq⟩
  · rw [heq]; exact h
  · rw [heq]; exact h.fresh _

/-- A name that was joined is used from then on. -/
theorem join_name_mem {a : Allocator} (h : a.SharedUsed) (s : String) :
    (a.join s).1.name ∈ (a.join s).2.used := by
  rcases join_cases a s with ⟨hmem, heq⟩ | ⟨_, heq⟩
  · rw [heq]; exact h _ hmem
  · rw [heq]; exact List.mem_cons_self

/-- Joining a name shares nothing. -/
theorem join_shared (a : Allocator) (s : String) : (a.join s).2.shared = a.shared := by
  rcases join_cases a s with ⟨_, heq⟩ | ⟨_, heq⟩
  · rw [heq]
  · rw [heq]; rfl

/-- If what is joined is a shared name, then it is the one asked for. -/
theorem name_of_join_shared {a : Allocator} (h : a.SharedUsed) {s : String}
    (hmem : (a.join s).1.name ∈ a.shared) : (a.join s).1.name = nameOf s := by
  rcases join_cases a s with ⟨_, heq⟩ | ⟨_, heq⟩
  · rw [heq]
  · rw [heq] at hmem
    exact (fresh_not_mem a _ (h _ hmem)).elim

end Allocator

/-- Every shared name is one of `W`, and every name of `W` is used already. -/
structure Ready (W : String → Prop) (a : Allocator) : Prop where
  shared : ∀ n ∈ a.shared, W n
  used : ∀ n, W n → n ∈ a.used

/-- The variable `v` is taken from `a` and leaves `a'`: its name is one of `W` or
was free, and no used name becomes free. -/
structure Draws (W : String → Prop) (a : Allocator) (v : Var) (a' : Allocator) : Prop where
  ready : Ready W a'
  grows : a.used ⊆ a'.used
  taken : v.name ∈ a'.used
  fresh : W v.name ∨ v.name ∉ a.used

variable {W : String → Prop} {a : Allocator}

/-- A fresh name is drawn. -/
theorem Ready.draws_fresh (h : Ready W a) (s : String) :
    Draws W a (a.fresh s).1 (a.fresh s).2 where
  ready := ⟨h.shared, fun n hn => List.mem_cons_of_mem _ (h.used n hn)⟩
  grows := List.subset_cons_self _ _
  taken := List.mem_cons_self
  fresh := .inr (a.fresh_not_mem s)

theorem Ready.draws_share (h : Ready W a) {s : String} (hs : W (Allocator.nameOf s)) :
    Draws W a (a.share s).1 (a.share s).2 where
  ready :=
    { shared := by
        intro n hn
        rcases List.mem_cons.mp hn with rfl | hn
        · exact hs
        · exact h.shared n hn
      used := fun n hn => List.mem_cons_of_mem _ (h.used n hn) }
  grows := List.subset_cons_self _ _
  taken := List.mem_cons_self
  fresh := .inl hs

/-- A name is drawn by joining it. -/
theorem Ready.draws_join (h : Ready W a) (s : String) :
    Draws W a (a.join s).1 (a.join s).2 := by
  rcases a.join_cases s with ⟨hmem, heq⟩ | ⟨_, heq⟩
  · rw [heq]
    have hW := h.shared _ hmem
    exact ⟨h, List.Subset.refl _, h.used _ hW, .inl hW⟩
  · rw [heq]
    exact h.draws_fresh _

/-- Places that hold variables taken from `a`; two of them hold the same one only if
its name is one of `W`. -/
structure Apart {σ : Type} (W : String → Prop) (holds : σ → Var → Prop) (a : Allocator) :
    Prop where
  ready : Ready W a
  taken : ∀ s v, holds s v → v.name ∈ a.used
  apart : ∀ s t v, holds s v → holds t v → s = t ∨ W v.name

namespace Apart

variable {σ : Type} {holds holds' : σ → Var → Prop} {a' : Allocator}

/-- Places that are all empty are apart. -/
theorem nothing (ha : Ready W a) : Apart W (fun (_ : σ) _ => False) a :=
  ⟨ha, fun _ _ h => h.elim, fun _ _ _ h => h.elim⟩

/-- Places may be emptied, and names may be used up. -/
theorem mono (h : Apart W holds a) (hready : Ready W a') (hgrows : a.used ⊆ a'.used)
    (hless : ∀ s v, holds' s v → holds s v) : Apart W holds' a' where
  ready := hready
  taken s v hv := hgrows (h.taken s v (hless s v hv))
  apart s t v hs ht := h.apart s t v (hless s v hs) (hless t v ht)

/-- One place may get a variable that is drawn. -/
theorem draw (h : Apart W holds a) {x : Var} (hx : Draws W a x a') (place : σ)
    (hless : ∀ s v, holds' s v → holds s v ∨ (s = place ∧ v = x)) : Apart W holds' a' := by
  have hfresh : ∀ s, holds s x → W x.name := by
    intro s hs
    rcases hx.fresh with hW | hfree
    · exact hW
    · exact (hfree (h.taken s x hs)).elim
  refine ⟨hx.ready, ?_, ?_⟩
  · intro s v hv
    rcases hless s v hv with hold | ⟨_, rfl⟩
    · exact hx.grows (h.taken s v hold)
    · exact hx.taken
  · intro s t v hs ht
    rcases hless s v hs with hs | ⟨rfl, rfl⟩
    · rcases hless t v ht with ht | ⟨rfl, rfl⟩
      · exact h.apart s t v hs ht
      · exact .inr (hfresh s hs)
    · rcases hless t v ht with ht | ⟨rfl, _⟩
      · exact .inr (hfresh t ht)
      · exact .inl rfl

end Apart

end ObjectGraph
