import Mathlib.Algebra.Order.Floor.Ring
import Mathlib.Data.Prod.Lex
import Mathlib.Data.Rat.Floor
import Mathlib.Tactic.FieldSimp
import Mathlib.Tactic.Linarith
import Mathlib.Tactic.Positivity
import ObjectGraph.Proofs.Instant.Timestamps

/-!
# Moments

The moments that timestamps stand for.  A moment is given by its minute in UTC and the seconds
into it, because a leap second makes a minute longer.  Its millisecond is the one it lies in,
so what is behind the third digit of a fraction is cut off, in front of 1970 as well as
after it: the reader keeps the millisecond of the moment (`Timestamp.place_instant`).
-/

namespace ObjectGraph

/-! ## Moments -/

/-- A moment: its minute in UTC, counted from the start of 1970, and the seconds into it. -/
structure Moment where
  minute : ℤ
  second : ℚ
  second_nonneg : 0 ≤ second

namespace Moment

/-- The seconds from the start of 1970, each minute counted with 60. -/
def seconds (μ : Moment) : ℚ :=
  60 * μ.minute + μ.second

/-- The millisecond that a moment lies in: its minute, and the milliseconds into it. -/
def truncated (μ : Moment) : ℤ ×ₗ ℤ :=
  toLex (μ.minute, ⌊1000 * μ.second⌋)

variable {μ ν : Moment}

/-- Before a leap second a moment has 60000 milliseconds of its minute to lie in. -/
theorem floor_seconds (h : μ.second < 60) :
    ⌊1000 * μ.seconds⌋ = 60000 * μ.minute + ⌊1000 * μ.second⌋ ∧
      0 ≤ ⌊1000 * μ.second⌋ ∧ ⌊1000 * μ.second⌋ < 60000 := by
  have hsum : 1000 * μ.seconds = ((60000 * μ.minute : ℤ) : ℚ) + 1000 * μ.second := by
    unfold seconds
    push_cast
    ring
  have hnonneg := μ.second_nonneg
  refine ⟨by rw [hsum, Int.floor_intCast_add], Int.floor_nonneg.mpr (by linarith), ?_⟩
  rw [Int.floor_lt]
  push_cast
  linarith

/-- Outside of leap seconds a millisecond is a whole number of them from 1970. -/
theorem truncated_eq_iff (hμ : μ.second < 60) (hν : ν.second < 60) :
    μ.truncated = ν.truncated ↔ ⌊1000 * μ.seconds⌋ = ⌊1000 * ν.seconds⌋ := by
  obtain ⟨hsum, hlow, hhigh⟩ := floor_seconds hμ
  obtain ⟨hsum', hlow', hhigh'⟩ := floor_seconds hν
  rw [truncated, truncated, toLex_inj, Prod.mk.injEq, hsum, hsum']
  omega

/-- Without leap seconds the milliseconds are ordered as the seconds are, rounded down. -/
theorem truncated_lt_iff (hμ : μ.second < 60) (hν : ν.second < 60) :
    μ.truncated < ν.truncated ↔ ⌊1000 * μ.seconds⌋ < ⌊1000 * ν.seconds⌋ := by
  obtain ⟨hsum, hlow, hhigh⟩ := floor_seconds hμ
  obtain ⟨hsum', hlow', hhigh'⟩ := floor_seconds hν
  rw [truncated, truncated, Prod.Lex.toLex_lt_toLex, hsum, hsum']
  dsimp only
  omega

/-- A millisecond of a leap second has no other moments in it. -/
theorem second_lt_of_truncated_eq (h : μ.truncated = ν.truncated) (hν : ν.second < 60) :
    μ.second < 60 := by
  have hfloor : ⌊1000 * μ.second⌋ = ⌊1000 * ν.second⌋ := (Prod.mk.inj (toLex_inj.mp h)).2
  have hlt : ⌊1000 * μ.second⌋ < 60000 := hfloor.trans_lt (floor_seconds hν).2.2
  rw [Int.floor_lt] at hlt
  push_cast at hlt
  linarith

end Moment

/-! ## Fractions -/

namespace Instant

variable {ds : List Char}

/-- The part of a second that the digits of a fraction make. -/
def fractionOf (ds : List Char) : ℚ :=
  natOfDigits ds / 10 ^ ds.length

/-- A fraction is no less than zero. -/
theorem fractionOf_nonneg (ds : List Char) : 0 ≤ fractionOf ds := by
  unfold fractionOf
  positivity

/-- A fraction is less than one. -/
theorem fractionOf_lt_one (h : ∀ c ∈ ds, c.isDigit = true) : fractionOf ds < 1 := by
  have hlt := natOfDigits_lt h
  rw [fractionOf, div_lt_one (by positivity)]
  exact_mod_cast hlt

/-- Digits stay digits with zeros behind them. -/
theorem isDigit_append_zeros (h : ∀ c ∈ ds, c.isDigit = true) :
    ∀ c ∈ ds ++ ['0', '0'], c.isDigit = true := by
  rw [List.forall_mem_append]
  exact ⟨h, List.all_eq_true.mp rfl⟩

/-- A hundred times the number of some digits has the first three digits in front. -/
theorem exists_behind_millisOf {d : Char} (h : ∀ c ∈ d :: ds, c.isDigit = true) :
    ∃ behind < 10 ^ ds.length,
      100 * natOfDigits (d :: ds) = 10 ^ ds.length * millisOf (d :: ds) + behind := by
  let spread := (d :: ds) ++ ['0', '0']
  have hlength : (spread.drop 3).length = ds.length := by simp [spread]
  refine ⟨natOfDigits (spread.drop 3), ?_, ?_⟩
  · rw [← hlength]
    exact natOfDigits_lt fun c hc => isDigit_append_zeros h c (List.mem_of_mem_drop hc)
  · have hzeros : natOfDigits spread = 100 * natOfDigits (d :: ds) :=
      natOfDigits_append (d :: ds) ['0', '0']
    rw [← hzeros, ← hlength, millisOf, ← natOfDigits_append, List.take_append_drop]

/-- **The first three digits** are the milliseconds below a fraction. -/
theorem floor_fractionOf (h : ∀ c ∈ ds, c.isDigit = true) :
    ⌊1000 * fractionOf ds⌋ = millisOf ds := by
  cases ds with
  | nil => simp [fractionOf, millisOf, natOfDigits]
  | cons d rest =>
      obtain ⟨behind, hlt, hsplit⟩ := exists_behind_millisOf h
      have hpos : (0 : ℚ) < 10 ^ rest.length := by positivity
      have hlt : (behind : ℚ) < 10 ^ rest.length := by exact_mod_cast hlt
      have hsplit : (100 * natOfDigits (d :: rest) : ℚ) =
          10 ^ rest.length * millisOf (d :: rest) + behind := by
        exact_mod_cast hsplit
      have hvalue : 1000 * fractionOf (d :: rest) =
          (10 ^ rest.length * millisOf (d :: rest) + behind) / 10 ^ rest.length := by
        rw [← hsplit, fractionOf, List.length_cons, pow_succ]
        field_simp
        ring
      have hnonneg : (0 : ℚ) ≤ behind := Nat.cast_nonneg _
      rw [hvalue, Int.floor_eq_iff, le_div_iff₀ hpos, div_lt_iff₀ hpos]
      push_cast
      constructor <;> linarith

/-- The first three digits of a fraction are less than a thousand. -/
theorem millisOf_lt (h : ∀ c ∈ ds, c.isDigit = true) : millisOf ds < 1000 := by
  have hdigits : ∀ c ∈ (ds ++ ['0', '0']).take 3, c.isDigit = true :=
    fun c hc => isDigit_append_zeros h c (List.mem_of_mem_take hc)
  have hlength : ((ds ++ ['0', '0']).take 3).length ≤ 3 := by simp
  exact (natOfDigits_lt hdigits).trans_le (Nat.pow_le_pow_right (by decide) hlength)

/-! ## Places -/

/-- The place of an instant: its minute, and the milliseconds into it. -/
def place (t : Instant) : ℤ ×ₗ ℤ :=
  toLex (t.millis / 60000, t.millis % 60000 + if t.leap then 1000 else 0)

/-- A leap second is the last one of a minute. -/
def Proper (t : Instant) : Prop :=
  t.leap = true → 59000 ≤ t.millis % 60000

/-- An instant is known from its place. -/
theorem eq_of_place_eq {t u : Instant} (ht : t.Proper) (hu : u.Proper) (h : t.place = u.place) :
    t = u := by
  obtain ⟨millis, leap⟩ := t
  obtain ⟨millis', leap'⟩ := u
  obtain ⟨hminute, hwithin⟩ := Prod.mk.inj (toLex_inj.mp h)
  dsimp only [Proper] at ht hu hminute hwithin
  cases leap <;> cases leap' <;> simp at ht hu hwithin ⊢ <;> omega

end Instant

namespace Timestamp

open Instant

/-- The moment that a timestamp stands for. -/
def moment (τ : Timestamp) : Moment where
  minute := τ.minutes
  second := τ.second + fractionOf τ.fraction
  second_nonneg := add_nonneg (Nat.cast_nonneg _) (fractionOf_nonneg _)

/-- A timestamp with a leap second is at the end of its minute. -/
theorem proper_instant (τ : Timestamp) : τ.instant.Proper := by
  intro hleap
  have hmillis := millisOf_lt τ.isDigit
  have hsecond : τ.second = 60 := by simpa [instant] using hleap
  simp only [instant, hsecond, if_true]
  omega

/-- **What is read** from a timestamp is the millisecond of its moment. -/
theorem place_instant (τ : Timestamp) : τ.instant.place = τ.moment.truncated := by
  have hmillis := millisOf_lt τ.isDigit
  have hsecond := τ.second_le
  have hfloor : ⌊1000 * τ.moment.second⌋ = 1000 * (τ.second : ℤ) + millisOf τ.fraction := by
    have hsum : 1000 * τ.moment.second =
        ((1000 * (τ.second : ℤ) : ℤ) : ℚ) + 1000 * fractionOf τ.fraction := by
      simp only [moment]
      push_cast
      ring
    rw [hsum, Int.floor_intCast_add, floor_fractionOf τ.isDigit]
  rw [Moment.truncated, hfloor, place, toLex_inj, Prod.mk.injEq]
  simp only [instant, moment, beq_iff_eq]
  by_cases hleap : τ.second = 60
  · simp only [hleap, if_true]
    omega
  · simp only [hleap, if_false]
    omega

end Timestamp

end ObjectGraph
