import Mathlib.Algebra.Order.Field.Power
import Mathlib.Algebra.Order.Field.Rat
import Mathlib.Algebra.Order.Floor.Semifield
import Mathlib.Data.Rat.Floor
import Mathlib.Tactic.FieldSimp
import Mathlib.Tactic.Linarith
import Mathlib.Tactic.Positivity
import Mathlib.Tactic.Ring
import ObjectGraph.Proofs.Number.Digits

/-!
# Decimals that round to a double

The exact arithmetic of the shortest decimal, read as rational numbers.  A decimal
rounds to a double when it lies between the middles to both neighbours
(`roundsTo_iff`).  On a grid of decimals only the two around the double can do so
(`onGrid?_spec`), and the nearer one does as soon as the grid is finer than the
doubles (`onGrid?_isSome`).
-/

namespace ObjectGraph

namespace Binary64

/-- The value of a fraction. -/
def Fraction.toRat (f : Fraction) : ℚ :=
  f.num / f.den

variable {x : Binary64} {n d : Nat} {t : Int}

/-! ## The place of a double -/

/-- The value of the last place of the significand. -/
def ulp (x : Binary64) : ℚ :=
  twoTo x.exponent / twoTo 1074

/-- The last place has a value. -/
theorem ulp_pos (x : Binary64) : 0 < x.ulp :=
  div_pos (Nat.cast_pos.2 (twoTo_pos _)) (Nat.cast_pos.2 (twoTo_pos _))

/-- An amount is as many last places as the significand says. -/
theorem abs_toRat (x : Binary64) : x.abs.toRat = x.significand * x.ulp := by
  simp only [Fraction.toRat, abs, ulp, Nat.cast_mul]
  ring

/-- The denominator of an amount is positive. -/
theorem abs_den_pos (x : Binary64) : 0 < x.abs.den := by
  simp only [abs]
  exact twoTo_pos 1074

theorem significand_pos (hx : x.magnitude ≠ 0) : 0 < x.significand := by
  unfold significand leadingBit
  split <;> omega

/-- A significand has 53 bits at most. -/
theorem significand_lt (x : Binary64) : x.significand < 2 ^ 53 := by
  unfold significand leadingBit
  split <;> omega

/-- A double below the normal ones has the least exponent, any other one a leading
one in its significand. -/
theorem exponent_eq_zero_or (x : Binary64) : x.exponent = 0 ∨ 2 ^ 52 ≤ x.significand := by
  unfold exponent significand leadingBit
  split <;> omega

/-- Half the distance to the double below: it is shorter at the powers of two. -/
def stepBelow (x : Binary64) : ℚ :=
  if x.magnitude % leadingBit = 0 ∧ leadingBit < x.magnitude then x.ulp / 4 else x.ulp / 2

/-! ## Decimals near a double -/

/-- Powers of ten that are not negative are natural numbers. -/
theorem ten_zpow_of_nonneg (ht : 0 ≤ t) : (10 : ℚ) ^ t = tenTo t.toNat := by
  lift t to ℕ using ht
  simp [tenTo]

/-- Negative powers of ten are the inverses of natural numbers. -/
theorem ten_zpow_of_neg (ht : ¬ 0 ≤ t) : (10 : ℚ) ^ t = 1 / tenTo (-t).toNat := by
  obtain ⟨m, rfl⟩ : ∃ m : ℕ, t = -(m : Int) := ⟨(-t).toNat, by omega⟩
  simp [tenTo, zpow_neg]

/-- Bounds in quarters of a unit are compared with a fraction across the
denominators. -/
theorem quarters_iff {low high num den unit : Nat} (hden : 0 < den) (hunit : 0 < unit)
    (closed : Prop) [Decidable closed] :
    (if closed then low * den ≤ 4 * num * unit && 4 * num * unit ≤ high * den
      else low * den < 4 * num * unit && 4 * num * unit < high * den) = true ↔
    if closed then
      (low / (4 * unit) : ℚ) ≤ num / den ∧ (num / den : ℚ) ≤ high / (4 * unit)
    else (low / (4 * unit) : ℚ) < num / den ∧ (num / den : ℚ) < high / (4 * unit) := by
  have hden : (0 : ℚ) < den := Nat.cast_pos.2 hden
  have hunit : (0 : ℚ) < 4 * unit := mul_pos (by norm_num) (Nat.cast_pos.2 hunit)
  have hswap : (num : ℚ) * (4 * unit) = (4 * num * unit : Nat) := by
    push_cast
    ring
  simp only [div_le_div_iff₀ hden hunit, div_le_div_iff₀ hunit hden, div_lt_div_iff₀ hden hunit,
    div_lt_div_iff₀ hunit hden, hswap, ← Nat.cast_mul, Nat.cast_le, Nat.cast_lt]
  split <;> simp only [Bool.and_eq_true, decide_eq_true_eq]

/-- A decimal as the fraction that is compared. -/
theorem decimal_ratio (d : Nat) (t : Int) :
    ((if 0 ≤ t then d * tenTo t.toNat else d : Nat) : ℚ) /
      (if 0 ≤ t then 1 else tenTo (-t).toNat : Nat) = d * 10 ^ t := by
  split
  next ht => rw [ten_zpow_of_nonneg ht, Nat.cast_mul, Nat.cast_one, div_one]
  next ht => rw [ten_zpow_of_neg ht, mul_one_div]

/-- The middle to the neighbour below, from its quarters. -/
theorem lower_quarters (hx : x.magnitude ≠ 0) :
    ((4 * x.significand * twoTo x.exponent -
      (if x.magnitude % leadingBit = 0 ∧ leadingBit < x.magnitude then twoTo x.exponent
        else 2 * twoTo x.exponent) : Nat) : ℚ) / (4 * twoTo 1074) =
      x.abs.toRat - x.stepBelow := by
  have hunit : (0 : ℚ) < twoTo 1074 := Nat.cast_pos.2 (twoTo_pos _)
  have hs := significand_pos hx
  have hle : 2 * twoTo x.exponent ≤ 4 * x.significand * twoTo x.exponent :=
    Nat.mul_le_mul_right _ (by omega)
  rw [abs_toRat]
  unfold stepBelow ulp
  split
  · rw [Nat.cast_sub (by omega)]
    push_cast
    field_simp
  · rw [Nat.cast_sub hle]
    push_cast
    field_simp
    ring

/-- The middle to the neighbour above, from its quarters. -/
theorem upper_quarters (x : Binary64) :
    ((4 * x.significand * twoTo x.exponent + 2 * twoTo x.exponent : Nat) : ℚ) /
      (4 * twoTo 1074) = x.abs.toRat + x.ulp / 2 := by
  have hunit : (0 : ℚ) < twoTo 1074 := Nat.cast_pos.2 (twoTo_pos _)
  rw [abs_toRat]
  unfold ulp
  push_cast
  field_simp
  ring

/-- A decimal rounds to a double when it lies between the middles to both
neighbours; the middles count where the significand is even. -/
theorem roundsTo_iff (hx : x.magnitude ≠ 0) :
    roundsTo x d t = true ↔
      if x.significand % 2 = 0 then
        x.abs.toRat - x.stepBelow ≤ d * 10 ^ t ∧ d * 10 ^ t ≤ x.abs.toRat + x.ulp / 2
      else
        x.abs.toRat - x.stepBelow < d * 10 ^ t ∧ d * 10 ^ t < x.abs.toRat + x.ulp / 2 := by
  have hden : 0 < (if 0 ≤ t then 1 else tenTo (-t).toNat) := by
    split
    · exact Nat.one_pos
    · exact tenTo_pos _
  rw [← decimal_ratio, ← lower_quarters hx, ← upper_quarters]
  exact quarters_iff hden (twoTo_pos 1074) _

/-- The double below is at most a last place away. -/
theorem stepBelow_le (x : Binary64) : x.stepBelow ≤ x.ulp / 2 := by
  have hulp := ulp_pos x
  unfold stepBelow
  split <;> linarith

/-- A decimal that rounds to a double is at most half a last place above it. -/
theorem le_of_roundsTo (hx : x.magnitude ≠ 0) (h : roundsTo x d t = true) :
    d * 10 ^ t ≤ (x.significand + 1 / 2) * x.ulp := by
  rw [roundsTo_iff hx, abs_toRat] at h
  split at h <;> linarith [h.2]

/-- What is nearer than half the way to the double below rounds to the double. -/
theorem roundsTo_of_near (hx : x.magnitude ≠ 0)
    (h : |d * 10 ^ t - x.abs.toRat| < x.stepBelow) : roundsTo x d t = true := by
  obtain ⟨hlow, hhigh⟩ := abs_lt.1 h
  have hstep := stepBelow_le x
  rw [roundsTo_iff hx]
  split
  · constructor <;> linarith
  · constructor <;> linarith

/-! ## Grids of decimals -/

/-- The fraction whose floor is taken on a grid. -/
theorem onGrid_ratio (f : Fraction) (t : Int) :
    ((if 0 ≤ t then f.num else f.num * tenTo (-t).toNat : Nat) : ℚ) /
      (if 0 ≤ t then f.den * tenTo t.toNat else f.den : Nat) = f.toRat / 10 ^ t := by
  unfold Fraction.toRat
  split
  next ht => rw [ten_zpow_of_nonneg ht, Nat.cast_mul, div_div]
  next ht => rw [ten_zpow_of_neg ht, Nat.cast_mul, div_div_eq_mul_div, div_one, mul_div_right_comm]

/-- The nearer one of the two neighbours on a grid is at most half a step away. -/
theorem abs_nearer_sub_le (num : Nat) {den : Nat} (hden : 0 < den) :
    |((if 2 * (num % den) < den ∨ (2 * (num % den) = den ∧ num / den % 2 = 0) then num / den
      else num / den + 1 : Nat) : ℚ) - num / den| ≤ 1 / 2 := by
  have hpos : (0 : ℚ) < den := Nat.cast_pos.2 hden
  have hsplit : (num / den : ℚ) = (num / den : Nat) + (num % den : Nat) / den := by
    have hnum : (num : ℚ) = den * (num / den : Nat) + (num % den : Nat) := by
      exact_mod_cast (Nat.div_add_mod num den).symm
    rw [hnum]
    field_simp
  have hrest : ((num % den : Nat) / den : ℚ) < 1 := by
    rw [div_lt_one hpos]
    exact_mod_cast Nat.mod_lt num hden
  have hnonneg : (0 : ℚ) ≤ (num % den : Nat) / den := by positivity
  rw [hsplit, abs_le]
  split
  next hnear =>
    have hhalf : ((num % den : Nat) / den : ℚ) ≤ 1 / 2 := by
      rw [div_le_div_iff₀ hpos (by norm_num)]
      have hle : (num % den) * 2 ≤ 1 * den := by omega
      exact_mod_cast hle
    constructor <;> linarith
  next hfar =>
    have hhalf : (1 / 2 : ℚ) ≤ (num % den : Nat) / den := by
      rw [div_le_div_iff₀ (by norm_num) hpos]
      have hle : 1 * den ≤ (num % den) * 2 := by omega
      exact_mod_cast hle
    push_cast
    constructor <;> linarith

/-- A hit on a grid is one of the two neighbours of the double on it. -/
theorem onGrid?_spec {hit : Decimal} (h : onGrid? x t = some hit) :
    hit.exponent = t ∧ roundsTo x hit.digits t = true ∧
      (hit.digits = ⌊x.abs.toRat / 10 ^ t⌋₊ ∨ hit.digits = ⌊x.abs.toRat / 10 ^ t⌋₊ + 1) := by
  rw [← onGrid_ratio, Nat.floor_div_eq_div]
  unfold onGrid? at h
  simp only [] at h
  generalize (if 0 ≤ t then x.abs.num else x.abs.num * tenTo (-t).toNat) = num at h ⊢
  generalize (if 0 ≤ t then x.abs.den * tenTo t.toNat else x.abs.den) = den at h ⊢
  generalize hpick : (if 2 * (num % den) < den ∨ (2 * (num % den) = den ∧ num / den % 2 = 0)
    then num / den else num / den + 1) = nearer at h
  have hnearer : nearer = num / den ∨ nearer = num / den + 1 := by
    rw [← hpick]
    split <;> simp
  generalize hother : (if nearer = num / den then num / den + 1 else num / den) = farther at h
  have hfarther : farther = num / den ∨ farther = num / den + 1 := by
    rw [← hother]
    split <;> simp
  split at h
  next hit =>
    obtain rfl := Option.some.inj h
    exact ⟨rfl, hit, hnearer⟩
  next =>
    split at h
    next hit =>
      obtain rfl := Option.some.inj h
      exact ⟨rfl, hit, hfarther⟩
    next => cases h

/-- A distance on a grid is so many of its steps. -/
theorem abs_mul_sub (q v : ℚ) (t : Int) : |q * 10 ^ t - v| = |q - v / 10 ^ t| * 10 ^ t := by
  have hpow : (0 : ℚ) < 10 ^ t := zpow_pos (by norm_num) t
  have hsplit : q * 10 ^ t - v = (q - v / 10 ^ t) * 10 ^ t := by field_simp
  rw [hsplit, abs_mul, abs_of_pos hpow]

/-- On a grid that is finer than the doubles there is a hit. -/
theorem onGrid?_isSome (hx : x.magnitude ≠ 0) (hfine : 10 ^ t / 2 < x.stepBelow) :
    (onGrid? x t).isSome = true := by
  have hpow : (0 : ℚ) < 10 ^ t := zpow_pos (by norm_num) t
  have hden : 0 < (if 0 ≤ t then x.abs.den * tenTo t.toNat else x.abs.den) := by
    split
    · exact Nat.mul_pos (abs_den_pos x) (tenTo_pos _)
    · exact abs_den_pos x
  have hnear := abs_nearer_sub_le
    (if 0 ≤ t then x.abs.num else x.abs.num * tenTo (-t).toNat) hden
  rw [onGrid_ratio] at hnear
  unfold onGrid?
  simp only []
  rw [if_pos]
  · rfl
  · refine roundsTo_of_near hx (lt_of_le_of_lt ?_ hfine)
    rw [abs_mul_sub]
    calc _ ≤ 1 / 2 * (10 : ℚ) ^ t := mul_le_mul_of_nonneg_right hnear hpow.le
      _ = 10 ^ t / 2 := by ring

end Binary64

end ObjectGraph
