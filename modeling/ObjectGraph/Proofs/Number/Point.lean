import ObjectGraph.Proofs.Number.Rounding

/-!
# The point of the shortest decimal

Seventeen digits are finer than the doubles, so `shortest` always finds a decimal.
Its point is where the double has it, or one place further when the digits carry to
the next power of ten (`point_cases`).  No carry happens at the ends of the range of
plain decimals: `10 ^ 16` is a double itself, and the one nearest to `10 ^ (-5)` lies
above it.  So the point tells which doubles are in the range (`point_iff`).
-/

namespace ObjectGraph

namespace Binary64

variable {x : Binary64} {n : Nat}

/-! ## Decimal digits in front of the point -/

/-- Powers of ten on both sides of the point make one. -/
theorem ten_pow_mul_zpow {k t : Int} (hk : n + t = k) :
    ((10 ^ n : Nat) : ℚ) * 10 ^ t = 10 ^ k := by
  rw [← hk, zpow_add₀ (by norm_num), zpow_natCast]
  push_cast
  rfl

/-- For a positive exponent the power of ten below is a natural number. -/
theorem ten_zpow_pred (hn : 0 < n) : (10 : ℚ) ^ ((n : Int) - 1) = (10 ^ (n - 1) : Nat) := by
  obtain ⟨m, rfl⟩ := Nat.exists_eq_succ_of_ne_zero hn.ne'
  simp

/-- The decimal point of a fraction is where its powers of ten say. -/
theorem decimalPoint_spec {f : Fraction} (hnum : 0 < f.num) (hden : 0 < f.den) :
    (10 : ℚ) ^ (decimalPoint f - 1) ≤ f.toRat ∧ f.toRat < 10 ^ decimalPoint f := by
  have hpos : (0 : ℚ) < f.den := Nat.cast_pos.2 hden
  unfold decimalPoint Fraction.toRat
  rw [le_div_iff₀ hpos, div_lt_iff₀ hpos]
  split
  next hle =>
    -- The digits of the whole part.
    have hcount := digitCount_pos (f.num / f.den)
    have hlow : 10 ^ (digitCount (f.num / f.den) - 1) * f.den ≤ f.num :=
      (Nat.le_div_iff_mul_le hden).1 (pow_le_of_pos (Nat.div_pos hle hden))
    have hhigh : f.num < 10 ^ digitCount (f.num / f.den) * f.den :=
      (Nat.div_lt_iff_lt_mul hden).1 (lt_pow_digitCount _)
    rw [ten_zpow_pred hcount, zpow_natCast]
    exact ⟨by exact_mod_cast hlow, by exact_mod_cast hhigh⟩
  next hgt =>
    -- The zeros behind the point are the digits of the inverse.
    have hcount := digitCount_pos ((f.den - 1) / f.num)
    have hlow : f.den ≤ f.num * 10 ^ digitCount ((f.den - 1) / f.num) := by
      have hlt := (Nat.div_lt_iff_lt_mul hnum).1 (lt_pow_digitCount ((f.den - 1) / f.num))
      rw [Nat.mul_comm]
      omega
    have hhigh : f.num * 10 ^ (digitCount ((f.den - 1) / f.num) - 1) < f.den := by
      have hle := (Nat.le_div_iff_mul_le hnum).1
        (pow_le_of_pos (Nat.div_pos (a := f.den - 1) (by omega) hnum))
      rw [Nat.mul_comm]
      omega
    generalize digitCount ((f.den - 1) / f.num) = c at *
    have hfirst : (10 : ℚ) ^ (1 - (c : Int) - 1) = ((10 ^ c : Nat) : ℚ)⁻¹ := by
      rw [show 1 - (c : Int) - 1 = -(c : Int) by omega, zpow_neg, zpow_natCast]
      push_cast
      rfl
    have hlast : (10 : ℚ) ^ (1 - (c : Int)) = ((10 ^ (c - 1) : Nat) : ℚ)⁻¹ := by
      rw [show 1 - (c : Int) = -((c : Int) - 1) by omega, zpow_neg, ten_zpow_pred hcount]
    rw [hfirst, hlast, inv_mul_le_iff₀ (by positivity), lt_inv_mul_iff₀ (by positivity)]
    refine ⟨?_, ?_⟩
    · rw [mul_comm]
      exact_mod_cast hlow
    · rw [mul_comm]
      exact_mod_cast hhigh

/-- Ten times as much has one digit more. -/
theorem digitCount_mul_ten (hn : 0 < n) : digitCount (n * 10) = digitCount n + 1 := by
  have hcount := digitCount_pos n
  have hpow : 10 ^ (digitCount n - 1) * 10 = 10 ^ digitCount n := by
    rw [← Nat.pow_succ, Nat.succ_eq_add_one, Nat.sub_add_cancel hcount]
  apply digitCount_eq
  · rw [← hpow]
    exact Nat.mul_le_mul_right 10 (pow_le_of_pos hn)
  · rw [Nat.pow_succ]
    exact Nat.mul_lt_mul_of_pos_right (lt_pow_digitCount n) (by decide)

/-- Moving zeros from the digits to the exponent leaves the point where it is. -/
theorem digitCount_normalize (fuel : Nat) (d : Decimal) :
    (digitCount (d.normalize fuel).digits : Int) + (d.normalize fuel).exponent =
      digitCount d.digits + d.exponent := by
  induction fuel generalizing d with
  | zero => rfl
  | succ fuel ih =>
      unfold Decimal.normalize
      split
      next hzero =>
        obtain ⟨hmod, hne⟩ := hzero
        have hsplit : d.digits = d.digits / 10 * 10 := by omega
        have hcount : digitCount d.digits = digitCount (d.digits / 10) + 1 := by
          conv_lhs => rw [hsplit]
          exact digitCount_mul_ten (by omega)
        rw [ih, hcount]
        push_cast
        omega
      next => rfl

/-! ## The shortest decimal -/

/-- A number that is not zero has a positive numerator. -/
theorem abs_num_pos (hx : x.magnitude ≠ 0) : 0 < x.abs.num := by
  simp only [abs]
  exact Nat.mul_pos (significand_pos hx) (twoTo_pos _)

/-- An amount lies between two powers of ten, by its decimal point. -/
theorem abs_between (hx : x.magnitude ≠ 0) :
    (10 : ℚ) ^ (decimalPoint x.abs - 1) ≤ x.abs.toRat ∧
      x.abs.toRat < 10 ^ decimalPoint x.abs :=
  decimalPoint_spec (abs_num_pos hx) (abs_den_pos x)

/-- Seventeen digits tell a double from its neighbours. -/
theorem step_lt_stepBelow (hx : x.magnitude ≠ 0) :
    (10 : ℚ) ^ (decimalPoint x.abs - 17) / 2 < x.stepBelow := by
  have hulp := ulp_pos x
  have hgrid : (10 : ℚ) ^ (decimalPoint x.abs - 17) ≤ x.significand * x.ulp / 10 ^ 16 := by
    rw [le_div_iff₀ (by positivity), ← abs_toRat]
    calc (10 : ℚ) ^ (decimalPoint x.abs - 17) * 10 ^ 16
        = (10 ^ 16 : Nat) * 10 ^ (decimalPoint x.abs - 17) := by
          push_cast
          ring
      _ = 10 ^ (decimalPoint x.abs - 1) := ten_pow_mul_zpow (by push_cast; ring)
      _ ≤ x.abs.toRat := (abs_between hx).1
  unfold stepBelow
  split
  next hpower =>
    have hs : x.significand = 2 ^ 52 := by
      unfold significand leadingBit at *
      rw [if_neg (by omega)]
      omega
    rw [hs] at hgrid
    push_cast at hgrid
    linarith
  next =>
    have hs : (x.significand : ℚ) < 2 ^ 53 := by
      exact_mod_cast significand_lt x
    have hlt : (x.significand : ℚ) * x.ulp < 2 ^ 53 * x.ulp := mul_lt_mul_of_pos_right hs hulp
    linarith

/-- The shortest decimal is a hit on the grid of a number of digits. -/
theorem exists_shortest (hx : x.magnitude ≠ 0) :
    ∃ (n : Nat) (hit : Decimal), onGrid? x (decimalPoint x.abs - (n + 1)) = some hit ∧
      x.shortest = hit.normalize (digitCount hit.digits) := by
  have hsome : ((List.range 17).findSome? fun (n : Nat) =>
      onGrid? x (decimalPoint x.abs - (n + 1))).isSome = true := by
    rw [List.findSome?_isSome_iff]
    refine ⟨16, by decide, onGrid?_isSome hx ?_⟩
    convert step_lt_stepBelow hx using 3
    push_cast
    ring
  obtain ⟨hit, hhit⟩ := Option.isSome_iff_exists.1 hsome
  obtain ⟨n, -, hn⟩ := List.exists_of_findSome?_eq_some hhit
  refine ⟨n, hit, hn, ?_⟩
  unfold shortest
  rw [if_neg hx]
  simp only [hhit]

/-- The number of digits in front of the point of the shortest decimal. -/
def point (x : Binary64) : Int :=
  digitCount x.shortest.digits + x.shortest.exponent

/-- The shortest decimal has its point where the double has it, unless it is the next
power of ten. -/
theorem point_cases (hx : x.magnitude ≠ 0) :
    x.point = decimalPoint x.abs ∨
      x.point = decimalPoint x.abs + 1 ∧
        ∃ (d : Nat) (t : Int), roundsTo x d t = true ∧
          (d : ℚ) * 10 ^ t = 10 ^ decimalPoint x.abs := by
  obtain ⟨n, hit, hgrid, hshortest⟩ := exists_shortest hx
  obtain ⟨hexponent, hrounds, hdigits⟩ := onGrid?_spec hgrid
  obtain ⟨hlow, hhigh⟩ := abs_between hx
  have hpoint : x.point = digitCount hit.digits + hit.exponent := by
    unfold point
    rw [hshortest, digitCount_normalize]
  rw [hpoint, hexponent]
  generalize decimalPoint x.abs = k at *
  have hstep : (0 : ℚ) < 10 ^ (k - (n + 1)) := zpow_pos (by norm_num) _
  have hnonneg : 0 ≤ x.abs.toRat := (zpow_pos (by norm_num) _).le.trans hlow
  -- The double is a number of `n + 1` digits on its grid.
  have hfloor : 10 ^ n ≤ ⌊x.abs.toRat / 10 ^ (k - (n + 1))⌋₊ := by
    apply Nat.le_floor
    rw [le_div_iff₀ hstep, ten_pow_mul_zpow (k := k - 1) (by omega)]
    exact hlow
  have hceil : ⌊x.abs.toRat / 10 ^ (k - (n + 1))⌋₊ < 10 ^ (n + 1) := by
    rw [Nat.floor_lt (div_nonneg hnonneg hstep.le), div_lt_iff₀ hstep,
      ten_pow_mul_zpow (k := k) (by push_cast; omega)]
    exact hhigh
  rcases Nat.lt_or_ge hit.digits (10 ^ (n + 1)) with hlt | hge
  · left
    rw [digitCount_eq (k := n) (by omega) hlt]
    push_cast
    omega
  · right
    have hpower : hit.digits = 10 ^ (n + 1) := by omega
    refine ⟨?_, hit.digits, k - (n + 1), hrounds, ?_⟩
    · rw [hpower, digitCount_eq (k := n + 1) (Nat.le_refl _)
        (Nat.pow_lt_pow_right (by decide) (by omega))]
      push_cast
      omega
    · rw [hpower, ten_pow_mul_zpow (k := k) (by push_cast; omega)]

/-! ## The ends of the plain decimals -/

/-- The last place is a power of two. -/
theorem ulp_eq_zpow (x : Binary64) : x.ulp = 2 ^ ((x.exponent : Int) - 1074) := by
  have hcast : ∀ n : Nat, (twoTo n : ℚ) = 2 ^ (n : Int) := by
    intro n
    simp [twoTo]
  unfold ulp
  rw [hcast, hcast, ← zpow_sub₀ (by norm_num)]
  rfl

/-- The last place times a power of two is the power by that much higher. -/
theorem ulp_mul_pow {j : Nat} {m : Int} (h : (x.exponent : Int) + j = 1074 + m) :
    x.ulp * (2 ^ j : Nat) = 2 ^ m := by
  rw [ulp_eq_zpow, Nat.cast_pow, Nat.cast_ofNat, ← zpow_natCast, ← zpow_add₀ (by norm_num)]
  congr 1
  omega

/-- The last place is no smaller than the powers of two below it. -/
theorem le_ulp {m : Int} (h : 1074 + m ≤ x.exponent) : 2 ^ m ≤ x.ulp := by
  rw [ulp_eq_zpow]
  exact zpow_le_zpow_right₀ (by norm_num) (by omega)

/-- The power `10 ^ 16` is a double, so none below it rounds from it. -/
theorem roundsTo_below_upper {d : Nat} {t : Int} (hx : x.magnitude ≠ 0)
    (hbelow : x.abs.toRat < 10 ^ 16) (h : roundsTo x d t = true) :
    (d : ℚ) * 10 ^ t ≠ 10 ^ 16 := by
  intro hpower
  have habove := le_of_roundsTo hx h
  have hulp := ulp_pos x
  rw [hpower] at habove
  rw [abs_toRat] at hbelow
  rcases Nat.lt_or_ge 1090 x.exponent with hlarge | hsmall
  · have hs : (2 ^ 52 : ℚ) ≤ x.significand := by
      have hnormal := (exponent_eq_zero_or x).resolve_left (by omega)
      exact_mod_cast hnormal
    have hle : (2 ^ 17 : ℚ) ≤ x.ulp := le_ulp (m := 17) (by omega)
    have hmul : (2 ^ 52 : ℚ) * 2 ^ 17 ≤ x.significand * x.ulp :=
      mul_le_mul hs hle (by positivity) (by positivity)
    linarith
  · -- The power is a multiple of the last place.
    obtain ⟨m, hm⟩ : ∃ m : Nat, (10 : ℚ) ^ 16 = m * x.ulp := by
      have hplace : x.ulp * (2 ^ (1090 - x.exponent) : Nat) = 2 ^ 16 :=
        ulp_mul_pow (m := 16) (by omega)
      refine ⟨5 ^ 16 * 2 ^ (1090 - x.exponent), ?_⟩
      rw [Nat.cast_mul, mul_assoc, mul_comm _ x.ulp, hplace]
      norm_num
    rw [hm] at hbelow habove
    have hle : (m : ℚ) ≤ x.significand + 1 / 2 := le_of_mul_le_mul_right habove hulp
    have hlt : x.significand < m := by
      exact_mod_cast lt_of_mul_lt_mul_right hbelow hulp.le
    have hsucc : (x.significand : ℚ) + 1 ≤ m := by
      exact_mod_cast hlt
    linarith

/-- Where a significand is below `2 ^ j / 10 ^ 5`, so is the half above it: with 53 bits
only `j = 69` comes near, and there the half does not reach. -/
theorem not_half_below {s j : Nat} (hs : s < 2 ^ 53) (hnormal : j < 1074 → 2 ^ 52 ≤ s)
    (hlow : s * 10 ^ 5 < 2 ^ j) : (2 * s + 1) * 10 ^ 5 < 2 * 2 ^ j := by
  by_contra hhigh
  have hbelow : j < 70 := by
    by_contra hge
    have hpow : 2 ^ 70 ≤ 2 ^ j := Nat.pow_le_pow_right (by decide) (by omega)
    omega
  have hleading := hnormal (by omega)
  have habove : 68 < j := by
    by_contra hle
    have hpow : 2 ^ j ≤ 2 ^ 68 := Nat.pow_le_pow_right (by decide) (by omega)
    omega
  obtain rfl : j = 69 := by omega
  omega

/-- The double nearest to `10 ^ (-5)` lies above it, so none below it rounds from it. -/
theorem roundsTo_below_lower {d : Nat} {t : Int} (hx : x.magnitude ≠ 0)
    (hbelow : x.abs.toRat < 1 / 10 ^ 5) (h : roundsTo x d t = true) :
    (d : ℚ) * 10 ^ t ≠ 1 / 10 ^ 5 := by
  intro hpower
  have habove := le_of_roundsTo hx h
  have hulp := ulp_pos x
  rw [hpower] at habove
  rw [abs_toRat] at hbelow
  rcases Nat.lt_or_ge 1074 x.exponent with hlarge | hsmall
  · have hs : (1 : ℚ) ≤ x.significand := by
      exact_mod_cast significand_pos hx
    have hle : (1 : ℚ) ≤ x.ulp := le_ulp (m := 0) (by omega)
    have hmul : (1 : ℚ) * 1 ≤ x.significand * x.ulp :=
      mul_le_mul hs hle (by positivity) (by positivity)
    linarith
  · -- Counted in last places, the power lies between the significand and its next half.
    have hplace : x.ulp * (2 ^ (1074 - x.exponent) : Nat) = 1 :=
      ulp_mul_pow (m := 0) (by omega)
    have hlow : x.significand * 10 ^ 5 < 2 ^ (1074 - x.exponent) := by
      have hscaled : x.ulp * ((x.significand * 10 ^ 5 : Nat) : ℚ) <
          x.ulp * (2 ^ (1074 - x.exponent) : Nat) := by
        rw [hplace]
        push_cast
        linarith
      exact_mod_cast lt_of_mul_lt_mul_left hscaled hulp.le
    have hhigh : 2 * 2 ^ (1074 - x.exponent) ≤ (2 * x.significand + 1) * 10 ^ 5 := by
      have hscaled : x.ulp * ((2 * 2 ^ (1074 - x.exponent) : Nat) : ℚ) ≤
          x.ulp * (((2 * x.significand + 1) * 10 ^ 5 : Nat) : ℚ) := by
        rw [Nat.cast_mul, mul_left_comm, hplace]
        push_cast
        linarith
      exact_mod_cast le_of_mul_le_mul_left hscaled hulp
    have hgap := not_half_below (significand_lt x)
      (fun hj => (exponent_eq_zero_or x).resolve_left (by omega)) hlow
    omega

/-- The point of the shortest decimal lies in the plain range exactly for the doubles
from `10 ^ (-5)` up to below `10 ^ 16`. -/
theorem point_iff (hx : x.magnitude ≠ 0) :
    -5 < x.point ∧ x.point ≤ 16 ↔ 1 / 10 ^ 5 ≤ x.abs.toRat ∧ x.abs.toRat < 10 ^ 16 := by
  obtain ⟨hlow, hhigh⟩ := abs_between hx
  have hten : (1 : ℚ) < 10 := by norm_num
  have hlower : (1 / 10 ^ 5 : ℚ) = 10 ^ (-5 : Int) := by
    rw [zpow_neg, one_div]
    rfl
  have hupper : (10 : ℚ) ^ 16 = 10 ^ (16 : Int) := rfl
  have hleast : 1 / 10 ^ 5 ≤ x.abs.toRat ↔ -5 < decimalPoint x.abs := by
    rw [hlower]
    constructor
    · intro h
      exact (zpow_lt_zpow_iff_right₀ hten).1 (h.trans_lt hhigh)
    · intro h
      exact ((zpow_le_zpow_iff_right₀ hten).2 (by omega)).trans hlow
  have hgreatest : x.abs.toRat < 10 ^ 16 ↔ decimalPoint x.abs ≤ 16 := by
    rw [hupper]
    constructor
    · intro h
      have := (zpow_lt_zpow_iff_right₀ hten).1 (hlow.trans_lt h)
      omega
    · intro h
      exact hhigh.trans_le ((zpow_le_zpow_iff_right₀ hten).2 h)
  rw [hleast, hgreatest]
  rcases point_cases hx with heq | ⟨heq, d, t, hrounds, hpower⟩
  · rw [heq]
  · -- A carry to the next power of ten does not happen at the ends of the range.
    have hnotLower : decimalPoint x.abs ≠ -5 := by
      intro hk
      rw [hk, ← hlower] at hhigh hpower
      exact roundsTo_below_lower hx hhigh hrounds hpower
    have hnotUpper : decimalPoint x.abs ≠ 16 := by
      intro hk
      rw [hk] at hhigh hpower
      exact roundsTo_below_upper hx hhigh hrounds hpower
    rw [heq]
    omega

end Binary64

end ObjectGraph
