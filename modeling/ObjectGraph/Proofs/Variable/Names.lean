import Mathlib.Data.List.Nodup
import ObjectGraph.Proofs.Variable.Allocation

/-!
# Names of variables

A name consists of ASCII letters, digits and underscores and is not empty (`IsName`).
The name that a text stands for is one (`isName_nameOf`), and a text that is one stands
for itself (`nameOf_eq_self_iff`).  All that an allocator hands out are names, and those made
for a text with a number behind it end in a digit (`endsInDigit_join`).
-/

namespace ObjectGraph

open Sparql (Var)

namespace Allocator

/-- A text of ASCII letters, digits and underscores that is not empty. -/
structure IsName (s : String) : Prop where
  nonempty : s ≠ ""
  chars : ∀ c ∈ s.toList, isNameChar c = true

/-- The variable that the user's name stands for. -/
def varOf (name : String) : Var := ⟨nameOf name⟩

/-- Characters of names make a name. -/
theorem isName_ofList {cs : List Char} (hcs : cs ≠ []) (h : ∀ c ∈ cs, isNameChar c = true) :
    IsName (String.ofList cs) where
  nonempty heq := hcs (by simpa using congrArg String.toList heq)
  chars := by simpa using h

/-- What a text stands for is a name. -/
theorem isName_nameOf (s : String) : IsName (nameOf s) := by
  unfold nameOf
  split
  · exact ⟨by decide, by simp [isNameChar]⟩
  next hne =>
    refine isName_ofList (by simpa using hne) ?_
    intro c hc
    obtain ⟨d, -, rfl⟩ := List.mem_map.mp hc
    split
    · assumption
    · decide

/-- A character of a name marks no variable. -/
theorem isSigil_of_isNameChar {c : Char} (h : isNameChar c = true) : isSigil c = false := by
  rw [← Bool.not_eq_true]
  intro hsigil
  simp only [isSigil, Bool.or_eq_true, beq_iff_eq] at hsigil
  rcases hsigil with (rfl | rfl) | rfl <;> exact absurd h (by decide)

/-- A text stands for itself exactly if it is a name. -/
theorem nameOf_eq_self_iff {s : String} : nameOf s = s ↔ IsName s := by
  constructor
  · intro h
    rw [← h]
    exact isName_nameOf s
  · intro h
    cases hs : s.toList with
    | nil => exact (h.nonempty (by simpa using hs)).elim
    | cons c cs =>
        have hchars : ∀ d ∈ c :: cs, isNameChar d = true := hs ▸ h.chars
        have hfirst : isSigil c = false :=
          isSigil_of_isNameChar (hchars c List.mem_cons_self)
        have hsame : (c :: cs).map (fun d => if isNameChar d then d else '_') = c :: cs := by
          refine (List.map_congr_left fun d hd => ?_).trans (List.map_id _)
          simp [hchars d hd]
        unfold nameOf
        rw [hs, List.dropWhile_cons, hfirst]
        simp only [Bool.false_eq_true, if_false, hsame]
        rw [← hs, String.ofList_toList]

/-- A name stands for itself. -/
theorem nameOf_nameOf (s : String) : nameOf (nameOf s) = nameOf s :=
  nameOf_eq_self_iff.mpr (isName_nameOf s)

/-- A mark in front does not count. -/
theorem nameOf_ofText (s : String) : nameOf (Var.ofText s).name = nameOf s := by
  unfold Var.ofText
  split
  next rest hs => simp [nameOf, hs, isSigil]
  next rest hs => simp [nameOf, hs, isSigil]
  next => rfl

/-- A name with a number behind it is a name. -/
theorem IsName.append_toString {s : String} (h : IsName s) (n : Nat) :
    IsName (s ++ toString n) := by
  have hlist : (s ++ toString n).toList = s.toList ++ Nat.toDigits 10 n := by
    simp [Nat.toString_eq_repr, Nat.toList_repr]
  refine ⟨fun hempty => ?_, ?_⟩
  · rw [hempty] at hlist
    exact Nat.toDigits_ne_nil (List.append_eq_nil_iff.mp hlist.symm).2
  · intro c hc
    rw [hlist] at hc
    rcases List.mem_append.mp hc with hc | hc
    · exact h.chars c hc
    · have hdigit : c.isDigit = true := Nat.isDigit_of_mem_toDigits (by decide) (by decide) hc
      simp [isNameChar, Char.isAlphanum, hdigit]

/-- The alternatives to a name are names. -/
theorem IsName.alternative {base : String} (h : IsName base) (n : Nat) :
    IsName (alternative base n) := by
  refine IsName.append_toString ⟨by simp, ?_⟩ n
  simpa [isNameChar, or_imp, forall_and] using h.chars

/-- Whether a text ends in a digit, as all names do that are made from a number. -/
def endsInDigit (s : String) : Bool :=
  s.toList.getLast?.any Char.isDigit

/-- A text with a number behind it ends in a digit. -/
theorem endsInDigit_append_toString (s : String) (n : Nat) :
    endsInDigit (s ++ toString n) = true := by
  have hlast : ∃ c ∈ Nat.toDigits 10 n, (Nat.toDigits 10 n).getLast? = some c :=
    ⟨_, List.getLast_mem Nat.toDigits_ne_nil, List.getLast?_eq_some_getLast _⟩
  obtain ⟨c, hc, hlast⟩ := hlast
  rw [endsInDigit, String.toList_append, Nat.toString_eq_repr, Nat.toList_repr,
    List.getLast?_append_of_ne_nil _ Nat.toDigits_ne_nil, hlast]
  exact Nat.isDigit_of_mem_toDigits (by decide) (by decide) hc

/-- A text that does not end in a digit is told from the number behind it. -/
theorem append_toString_inj {s t : String} {m n : Nat} (hs : endsInDigit s = false)
    (ht : endsInDigit t = false) (h : s ++ toString m = t ++ toString n) :
    s = t ∧ m = n := by
  -- what one text has more than the other is digits, and a text does not end in one
  have hmore : ∀ {u v : String} {as : List Char} {k : Nat} {ds : List Char},
      endsInDigit v = false → v.toList = u.toList ++ as →
        Nat.toDigits 10 k = as ++ ds → as = [] := by
    intro u v as k ds hlast hv hdigits
    by_contra hne
    have hmem : as.getLast hne ∈ Nat.toDigits 10 k :=
      hdigits ▸ List.mem_append_left _ (List.getLast_mem hne)
    have hdigit := Nat.isDigit_of_mem_toDigits (by decide) (by decide) hmem
    rw [endsInDigit, hv, List.getLast?_append_of_ne_nil _ hne,
      List.getLast?_eq_some_getLast hne, Option.any_some, hdigit] at hlast
    cases hlast
  have hlist := congrArg String.toList h
  simp only [String.toList_append, Nat.toString_eq_repr, Nat.toList_repr] at hlist
  have hsame : s = t := by
    rcases List.append_eq_append_iff.mp hlist with ⟨as, hlonger, hdigits⟩ | ⟨as, hlonger, hdigits⟩
    · obtain rfl := hmore ht hlonger hdigits
      exact (String.toList_inj.mp (by rw [hlonger, List.append_nil])).symm
    · obtain rfl := hmore hs hlonger hdigits
      exact String.toList_inj.mp (by rw [hlonger, List.append_nil])
  subst hsame
  exact ⟨rfl, toString_nat_inj ((String.append_right_inj _).mp h)⟩

/-- The name that a text stands for ends in a digit with it. -/
theorem endsInDigit_nameOf {s : String} (h : endsInDigit s = true) :
    endsInDigit (nameOf s) = true := by
  obtain ⟨d, hlast, hdigit⟩ : ∃ d, s.toList.getLast? = some d ∧ d.isDigit = true := by
    simpa [endsInDigit, Option.any_eq_true] using h
  obtain ⟨cs, hcs⟩ := List.getLast?_eq_some_iff.mp hlast
  have hname : isNameChar d = true := by simp [isNameChar, Char.isAlphanum, hdigit]
  obtain ⟨rest, hrest⟩ : ∃ rest, s.toList.dropWhile isSigil = rest ++ [d] := by
    rw [hcs, List.dropWhile_append]
    split
    · exact ⟨[], by simp [isSigil_of_isNameChar hname]⟩
    · exact ⟨_, rfl⟩
  unfold nameOf
  rw [hrest]
  split
  next hnil => simp at hnil
  next => simp [endsInDigit, hname, hdigit]

/-- A fresh name for a text with a number behind it ends in a digit. -/
theorem endsInDigit_fresh (a : Allocator) {s : String} (h : endsInDigit s = true) :
    endsInDigit (a.fresh s).1.name = true := by
  unfold fresh
  dsimp only
  split
  · obtain ⟨k, -, heq, -⟩ := firstFree_spec a.used (nameOf s) 1
    rw [heq]
    exact endsInDigit_append_toString _ k
  · exact endsInDigit_nameOf h

/-- What ends in a digit is given a name that does. -/
theorem endsInDigit_join (a : Allocator) {s : String} (h : endsInDigit s = true) :
    endsInDigit (a.join s).1.name = true := by
  rcases a.join_cases s with ⟨-, heq⟩ | ⟨-, heq⟩
  · rw [heq]
    exact endsInDigit_nameOf h
  · rw [heq]
    exact endsInDigit_fresh a (endsInDigit_nameOf h)

/-- Fresh names are names. -/
theorem isName_fresh (a : Allocator) (s : String) : IsName (a.fresh s).1.name := by
  unfold fresh
  dsimp only
  split
  · obtain ⟨k, -, heq, -⟩ := firstFree_spec a.used (nameOf s) 1
    rw [heq]
    exact (isName_nameOf s).alternative k
  · exact isName_nameOf s

/-- Joined names are names. -/
theorem isName_join (a : Allocator) (s : String) : IsName (a.join s).1.name := by
  rcases a.join_cases s with ⟨-, heq⟩ | ⟨-, heq⟩
  · rw [heq]
    exact isName_nameOf s
  · rw [heq]
    exact a.isName_fresh _

end Allocator

end ObjectGraph
