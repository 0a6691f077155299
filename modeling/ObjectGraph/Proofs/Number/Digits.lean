import Mathlib.Algebra.Group.Nat.Defs
import Mathlib.Tactic.ByContra
import ObjectGraph.Number.Notation
import ObjectGraph.Text.Blank

/-!
# Digits

The digits of a natural number make it again, and their count places it between
two powers of ten (`lt_pow_digitCount`, `pow_le_of_pos`).  An integer is
written as an optional sign and digits, and what is written so is read back as
long as 64 bits hold it (`readInteger?_toString`).
-/

namespace ObjectGraph

/-- The digits follow one another from `0` to `9`. -/
theorem toNat_of_isDigit {c : Char} (h : c.isDigit = true) : 48 ≤ c.toNat ∧ c.toNat ≤ 57 := by
  simp only [Char.isDigit, Bool.and_eq_true, decide_eq_true_eq] at h
  exact ⟨UInt32.le_iff_toNat_le.1 h.1, UInt32.le_iff_toNat_le.1 h.2⟩

/-! ## Natural numbers -/

/-- The digits of a number are digits. -/
theorem all_isDigit_toDigits (n : Nat) : (Nat.toDigits 10 n).all Char.isDigit = true :=
  List.all_eq_true.2 fun _ hc => Nat.isDigit_of_mem_toDigits (by decide) (by decide) hc

/-- A number is read from its digits. -/
theorem natOfDigits_toDigits (n : Nat) : natOfDigits (Nat.toDigits 10 n) = n := by
  have hfold : natOfDigits (Nat.toDigits 10 n) = Nat.ofDigitChars 10 (Nat.toDigits 10 n) 0 := rfl
  rw [hfold, Nat.ofDigitChars_ten_toDigits]

namespace Binary64

/-- Every number has a digit. -/
theorem digitCount_pos (n : Nat) : 0 < digitCount n :=
  List.length_pos_iff.2 Nat.toDigits_ne_nil

/-- A number has as many digits as it takes to reach it by powers of ten. -/
theorem digitCount_le_iff {n k : Nat} (hk : 0 < k) : digitCount n ≤ k ↔ n < 10 ^ k :=
  Nat.length_toDigits_le_iff (by decide) hk

/-- A number is below the power of ten for its digits. -/
theorem lt_pow_digitCount (n : Nat) : n < 10 ^ digitCount n :=
  (digitCount_le_iff (digitCount_pos n)).1 (Nat.le_refl _)

/-- The digits of a positive number start at the power of ten with one digit less. -/
theorem pow_le_of_pos {n : Nat} (hn : 0 < n) : 10 ^ (digitCount n - 1) ≤ n := by
  rcases Nat.eq_zero_or_pos (digitCount n - 1) with hone | hmore
  · rw [hone]
    omega
  · by_contra hlt
    have hle : digitCount n ≤ digitCount n - 1 := (digitCount_le_iff hmore).2 (Nat.not_le.1 hlt)
    omega

/-- Between two neighbouring powers of ten the number of digits is known. -/
theorem digitCount_eq {n k : Nat} (hlow : 10 ^ k ≤ n) (hhigh : n < 10 ^ (k + 1)) :
    digitCount n = k + 1 := by
  have hle : digitCount n ≤ k + 1 := (digitCount_le_iff (by omega)).2 hhigh
  by_contra hne
  have hn : n < 10 ^ k := Nat.lt_of_lt_of_le (lt_pow_digitCount n)
    (Nat.pow_le_pow_right (by decide) (by omega))
  omega

end Binary64

/-! ## Integers -/

/-- The sign in front of the digits of a number. -/
def signOf (negative : Bool) : List Char :=
  if negative then ['-'] else []

/-- An integer is written with the sign of its own and the digits of its amount. -/
theorem toString_int (i : Int) :
    (toString i).toList = signOf (decide (i < 0)) ++ Nat.toDigits 10 i.natAbs := by
  cases i with
  | ofNat n => simp [signOf, toString, Int.repr]
  | negSucc n => simp [signOf, toString, Int.repr]

/-- A sign is read off what starts with a digit. -/
theorem readSign_append {c : Char} (hc : c.isDigit = true) (negative : Bool) (rest : List Char) :
    readSign (signOf negative ++ c :: rest) = (negative, c :: rest) := by
  cases negative with
  | true => rfl
  | false =>
      simp only [signOf, Bool.false_eq_true, if_false, List.nil_append]
      unfold readSign
      split
      next heq =>
        obtain ⟨rfl, -⟩ := List.cons.inj heq
        exact absurd hc (by decide)
      next heq =>
        obtain ⟨rfl, -⟩ := List.cons.inj heq
        exact absurd hc (by decide)
      next => rfl

/-- A sign is read off the digits of a number. -/
theorem readSign_append_toDigits (negative : Bool) (n : Nat) :
    readSign (signOf negative ++ Nat.toDigits 10 n) = (negative, Nat.toDigits 10 n) := by
  obtain ⟨c, rest, hcons⟩ := List.exists_cons_of_ne_nil (Nat.toDigits_ne_nil (b := 10) (n := n))
  have hfirst := List.all_eq_true.1 (all_isDigit_toDigits n) c (hcons ▸ List.mem_cons_self)
  rw [hcons]
  exact readSign_append hfirst negative rest

/-- An integer is its sign and its amount. -/
theorem signedInt_natAbs (i : Int) : signedInt (decide (i < 0)) i.natAbs = i := by
  unfold signedInt
  split
  next hnegative =>
    have hlt := of_decide_eq_true hnegative
    omega
  next hpositive =>
    have hge : ¬ i < 0 := fun hlt => hpositive (decide_eq_true hlt)
    omega

/-- The text of an integer is read back where 64 bits hold the integer, and not at
all elsewhere. -/
theorem readInteger?_toString (i : Int) :
    readInteger? (toString i).toList = if isSigned64 i then some i else none := by
  have hne : (Nat.toDigits 10 i.natAbs).isEmpty = false := by
    simp [Nat.toDigits_ne_nil]
  rw [toString_int]
  simp only [readInteger?, readSign_append_toDigits, all_isDigit_toDigits, hne,
    natOfDigits_toDigits, signedInt_natAbs]
  simp

/-! ## Blanks -/

namespace Text

/-- A digit is no blank. -/
theorem isBlank_of_isDigit {c : Char} (h : c.isDigit = true) : isBlank c = false := by
  have hrange := toNat_of_isDigit h
  simp only [isBlank, Bool.or_eq_false_iff, Bool.and_eq_false_iff, decide_eq_false_iff_not,
    beq_eq_false_iff_ne]
  omega

/-- A text without blanks stays as it is. -/
theorem trimChars_eq_self {cs : List Char} (h : ∀ c ∈ cs, isBlank c = false) :
    trimChars cs = cs := by
  have hkept : ∀ ds : List Char, (∀ c ∈ ds, isBlank c = false) → ds.dropWhile isBlank = ds := by
    intro ds hds
    cases ds with
    | nil => rfl
    | cons c rest => simp [hds c List.mem_cons_self]
  unfold trimChars
  rw [hkept cs h, hkept cs.reverse fun c hc => h c (List.mem_reverse.1 hc), List.reverse_reverse]

/-- There are no blanks around an integer. -/
theorem trimChars_int (i : Int) : trimChars (toString i).toList = (toString i).toList := by
  apply trimChars_eq_self
  intro c hc
  rw [toString_int] at hc
  rcases List.mem_append.1 hc with hsign | hdigit
  · obtain rfl : c = '-' := by
      unfold signOf at hsign
      split at hsign <;> simp_all
    rfl
  · exact isBlank_of_isDigit (List.all_eq_true.1 (all_isDigit_toDigits _) c hdigit)

end Text

end ObjectGraph
