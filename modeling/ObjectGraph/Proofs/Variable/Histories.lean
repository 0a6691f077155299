import Mathlib.Data.List.Perm.Subperm
import ObjectGraph.Proofs.Variable.Names

/-!
# Histories of names

A query asks one allocator for all its names, in any order: fresh ones, shared ones, and
shared ones if they are there.  The names that the calls of a history were given are those
that are used behind it (`mem_used_after`), and the names that they shared are those that are
shared behind it (`mem_shared_after`), so what the next call is given can be said in terms of
the calls in front of it (`given_next`).

The search for a fresh name goes through the candidates for a text: the name that the text
stands for, then its alternatives.  No two of them are the same, and each one passed over was
given before, so the search has to stop within as many steps as there were names
(`FirstFree.of_fresh`).
-/

namespace ObjectGraph.Allocator

open Sparql (Var)

/-! ## Candidates -/

/-- The names that the search tries: the one asked for, then its alternatives. -/
def candidate (base : String) : Nat → String
  | 0 => base
  | n + 1 => alternative base (n + 1)

/-- The first candidate that is not taken, found behind no more candidates than there are
taken names. -/
structure FirstFree (taken : List String) (base name : String) : Prop where
  free : name ∉ taken
  found : ∃ n ≤ taken.length, name = candidate base n ∧ ∀ m < n, candidate base m ∈ taken

/-- An alternative is longer than the name that was asked for. -/
theorem alternative_ne (base : String) (n : Nat) : alternative base n ≠ base := by
  intro h
  have hlength := congrArg String.length h
  have hsign : "_".length = 1 := rfl
  simp only [alternative, String.length_append] at hlength
  omega

/-- All candidates are different. -/
theorem candidate_inj {base : String} {m n : Nat} (h : candidate base m = candidate base n) :
    m = n := by
  cases m with
  | zero =>
      cases n with
      | zero => rfl
      | succ n => exact (alternative_ne base _ h.symm).elim
  | succ m =>
      cases n with
      | zero => exact (alternative_ne base _ h).elim
      | succ n => exact alternative_inj h

/-- There are no more candidates among some names than there are names. -/
theorem le_length_of_candidates {taken : List String} {base : String} {n : Nat}
    (h : ∀ m < n, candidate base m ∈ taken) : n ≤ taken.length := by
  have hnodup : ((List.range n).map (candidate base)).Nodup :=
    List.nodup_range.map fun _ _ => candidate_inj
  have hsubset : (List.range n).map (candidate base) ⊆ taken := by
    intro name hname
    obtain ⟨m, hm, rfl⟩ := List.mem_map.mp hname
    exact h m (List.mem_range.mp hm)
  simpa using (List.subperm_of_subset hnodup hsubset).length_le

/-- The search passes over an alternative only if it is among the names. -/
theorem firstFree_first (names : List String) (base : String) (n : Nat) :
    ∃ k, n ≤ k ∧ firstFree names base n = alternative base k ∧
      ∀ m, n ≤ m → m < k → alternative base m ∈ names := by
  fun_induction firstFree names base n with
  | case1 names n hmem ih =>
      obtain ⟨k, hk, heq, hbefore⟩ := ih
      refine ⟨k, by omega, heq, fun m hnm hmk => ?_⟩
      by_cases hfirst : m = n
      · exact hfirst ▸ hmem
      · exact List.mem_of_mem_erase (hbefore m (by omega) hmk)
  | case2 names n hfree => exact ⟨n, Nat.le_refl n, rfl, by omega⟩

/-- **A fresh name is the first candidate that is free**, and the search for it is short. -/
theorem FirstFree.of_fresh (a : Allocator) (s : String) :
    FirstFree a.used (nameOf s) (a.fresh s).1.name := by
  refine ⟨a.fresh_not_mem s, ?_⟩
  by_cases hbase : nameOf s ∈ a.used
  · obtain ⟨k, hk, heq, hbefore⟩ := firstFree_first a.used (nameOf s) 1
    have hpassed : ∀ m < k, candidate (nameOf s) m ∈ a.used := by
      intro m hm
      cases m with
      | zero => exact hbase
      | succ m => exact hbefore (m + 1) (by omega) hm
    obtain ⟨n, rfl⟩ : ∃ n, k = n + 1 := ⟨k - 1, by omega⟩
    refine ⟨n + 1, le_length_of_candidates hpassed, ?_, hpassed⟩
    simp [fresh, hbase, heq, candidate]
  · exact ⟨0, Nat.zero_le _, by simp [fresh, hbase, candidate], by omega⟩

/-- Only which names are taken matters, and not how often or in which order. -/
theorem FirstFree.congr {taken taken' : List String} {base name : String}
    (h : FirstFree taken base name) (hsame : ∀ n, n ∈ taken ↔ n ∈ taken') :
    FirstFree taken' base name := by
  obtain ⟨n, -, hname, hpassed⟩ := h.found
  have hpassed' : ∀ m < n, candidate base m ∈ taken' := fun m hm =>
    (hsame _).mp (hpassed m hm)
  exact ⟨fun hmem => h.free ((hsame name).mpr hmem), n, le_length_of_candidates hpassed',
    hname, hpassed'⟩

/-! ## Calls -/

/-- What an allocator can be asked for, with the text that the name is made of. -/
inductive Call where
  | fresh (s : String)
  | share (s : String)
  | join (s : String)

namespace Call

/-- The variable that a call is given, and the allocator that it leaves. -/
def run (a : Allocator) : Call → Var × Allocator
  | .fresh s => a.fresh s
  | .share s => a.share s
  | .join s => a.join s

/-- The name that a call shares. -/
def shared? : Call → Option String
  | .share s => some (nameOf s)
  | .fresh _ | .join _ => none

variable {a : Allocator}

/-- Shared names stay used. -/
theorem sharedUsed_run (h : a.SharedUsed) (c : Call) : (c.run a).2.SharedUsed := by
  cases c with
  | fresh s => exact h.fresh s
  | share s => exact h.share s
  | join s => exact h.join s

/-- What a call is given is used from then on, and nothing else comes to be used. -/
theorem mem_used_run (h : a.SharedUsed) (c : Call) (n : String) :
    n ∈ (c.run a).2.used ↔ n ∈ a.used ∨ n = (c.run a).1.name := by
  have hcons : ∀ name, n ∈ name :: a.used ↔ n ∈ a.used ∨ n = name := fun name => by
    rw [List.mem_cons, or_comm]
  cases c with
  | fresh s => exact hcons _
  | share s => exact hcons _
  | join s =>
      rcases a.join_cases s with ⟨hmem, heq⟩ | ⟨-, heq⟩
      · have hused := h _ hmem
        simp only [run, heq]
        exact ⟨.inl, by rintro (hn | rfl) <;> assumption⟩
      · simp only [run, heq]
        exact hcons _

/-- A call shares the name it is meant to, and no other. -/
theorem mem_shared_run (c : Call) (n : String) :
    n ∈ (c.run a).2.shared ↔ n ∈ a.shared ∨ c.shared? = some n := by
  cases c with
  | fresh s =>
      have hsame : (a.fresh s).2.shared = a.shared := rfl
      simp [run, hsame, shared?]
  | share s => simp [run, shared?, or_comm, eq_comm]
  | join s => simp [run, join_shared, shared?]

/-- Whatever is asked for, a call is given a name. -/
theorem isName_run (c : Call) : IsName (c.run a).1.name := by
  cases c with
  | fresh s => exact a.isName_fresh s
  | share s => exact isName_nameOf s
  | join s => exact a.isName_join s

end Call

/-! ## Histories -/

/-- The allocator behind some calls. -/
def after (a : Allocator) (calls : List Call) : Allocator :=
  calls.foldl (fun a c => (c.run a).2) a

/-- The names that calls are given, one after the other. -/
def given (a : Allocator) : List Call → List String
  | [] => []
  | c :: rest => (c.run a).1.name :: given (c.run a).2 rest

/-- The names that calls share. -/
def sharedBy (calls : List Call) : List String :=
  calls.filterMap Call.shared?

variable {a : Allocator}

theorem sharedUsed_after (h : a.SharedUsed) (calls : List Call) :
    (a.after calls).SharedUsed := by
  induction calls generalizing a with
  | nil => exact h
  | cons c rest ih => exact ih (c.sharedUsed_run h)

/-- The names in use are those that were and those that have been given. -/
theorem mem_used_after (h : a.SharedUsed) (calls : List Call) (n : String) :
    n ∈ (a.after calls).used ↔ n ∈ a.used ∨ n ∈ a.given calls := by
  induction calls generalizing a with
  | nil => simp [after, given]
  | cons c rest ih =>
      have hrest := ih (c.sharedUsed_run h)
      rw [c.mem_used_run h] at hrest
      simpa [after, given, or_assoc] using hrest

/-- The shared names are those that were and those that calls have shared. -/
theorem mem_shared_after (calls : List Call) (n : String) :
    n ∈ (a.after calls).shared ↔ n ∈ a.shared ∨ n ∈ sharedBy calls := by
  induction calls generalizing a with
  | nil => simp [after, sharedBy]
  | cons c rest ih =>
      have hrest := @ih (c.run a).2
      rw [c.mem_shared_run] at hrest
      simpa [after, sharedBy, List.mem_filterMap, or_assoc] using hrest

theorem mem_used_empty (calls : List Call) (n : String) :
    n ∈ (empty.after calls).used ↔ n ∈ empty.given calls := by
  rw [mem_used_after sharedUsed_empty]
  simp [empty]

theorem mem_shared_empty (calls : List Call) (n : String) :
    n ∈ (empty.after calls).shared ↔ n ∈ sharedBy calls := by
  rw [mem_shared_after]
  simp [empty]

/-- What was shared was given. -/
theorem sharedBy_subset_given (calls : List Call) : sharedBy calls ⊆ empty.given calls := by
  intro n hn
  have hshared := (mem_shared_empty calls n).mpr hn
  exact (mem_used_empty calls n).mp (sharedUsed_after sharedUsed_empty calls n hshared)

/-- A fresh name is the first candidate that has not been given. -/
theorem FirstFree.given (calls : List Call) (s : String) :
    FirstFree (empty.given calls) (nameOf s) ((empty.after calls).fresh s).1.name :=
  (FirstFree.of_fresh _ s).congr (mem_used_empty calls)

/-- **No taken name is handed out.**  Whatever a query has asked for before, its next call is
given a name: letters, digits and underscores of ASCII, and at least one of them.  A call for a
fresh name is given the first candidate that no call in front was given, and there are no more
candidates in front of it than calls; names that were shared count as given.  A call that
shares is given the name that its text stands for.  A call that joins is given that name if a
call in front shared it, and a fresh one if none did. -/
theorem given_next (calls : List Call) (call : Call) :
    let name := (call.run (empty.after calls)).1.name
    IsName name ∧ sharedBy calls ⊆ empty.given calls ∧
      match call with
      | .fresh s => FirstFree (empty.given calls) (nameOf s) name
      | .share s => name = nameOf s
      | .join s =>
        if nameOf s ∈ sharedBy calls then name = nameOf s
        else FirstFree (empty.given calls) (nameOf s) name := by
  refine ⟨call.isName_run, sharedBy_subset_given calls, ?_⟩
  cases call with
  | fresh s => exact FirstFree.given calls s
  | share s => rfl
  | join s =>
      have hshared := mem_shared_empty calls (nameOf s)
      dsimp only
      rcases (empty.after calls).join_cases s with ⟨hmem, heq⟩ | ⟨hmem, heq⟩
      · rw [if_pos (hshared.mp hmem)]
        simp only [Call.run, heq]
      · rw [if_neg fun h => hmem (hshared.mpr h)]
        have hfree := FirstFree.given calls (nameOf s)
        rw [nameOf_nameOf] at hfree
        simpa only [Call.run, heq] using hfree

end ObjectGraph.Allocator
