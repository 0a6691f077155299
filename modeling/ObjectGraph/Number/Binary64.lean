import ObjectGraph.Number.Range

/-!
# Finite binary64 numbers

A finite double is a sign and a magnitude: the lower 63 bits of its encoding,
which are in the order of the absolute values.  Its absolute value is
`significand * 2 ^ (exponent - 1074)` with natural numbers `significand` and
`exponent`, so comparing two doubles and rounding a fraction to one are exact
integer arithmetic.  `ofRatio?` rounds to the nearest double, a half to the even
neighbour, and has no answer where the result would be infinite.
-/

namespace ObjectGraph

/-- A finite binary64 number; zero has both signs. -/
structure Binary64 where
  negative : Bool
  /-- The encoding without its sign bit. -/
  magnitude : Nat
  finite : magnitude < 0x7FF0000000000000

namespace Binary64

instance : DecidableEq Binary64 := fun x y =>
  if h : x.negative = y.negative ∧ x.magnitude = y.magnitude then
    isTrue (by cases x; cases y; obtain ⟨rfl, rfl⟩ := h; rfl)
  else
    isFalse (by rintro rfl; exact h ⟨rfl, rfl⟩)

/-- The zero with a sign. -/
def zero (negative : Bool) : Binary64 :=
  ⟨negative, 0, by decide⟩

/-- The value of the leading one of a significand, and the number of magnitudes that
share an exponent. -/
def leadingBit : Nat := 0x10000000000000

/-- The significand: 53 bits, the leading one implied from the least normal
number on. -/
def significand (x : Binary64) : Nat :=
  if x.magnitude < leadingBit then x.magnitude else leadingBit + x.magnitude % leadingBit

/-- The exponent of the last place, counted from `2 ^ (-1074)`. -/
def exponent (x : Binary64) : Nat :=
  x.magnitude / leadingBit - 1

/-- The value in the order of the reals, with both zeros at `0`. -/
def key (x : Binary64) : Int :=
  if x.negative then -(x.magnitude : Int) else x.magnitude

/-- The order of the values. -/
def compare (x y : Binary64) : Ordering :=
  Ord.compare x.key y.key

/-- Equality of the values; the two zeros are equal. -/
def sameValue (x y : Binary64) : Bool :=
  x.key == y.key

/-- The fraction `num / den` scaled by `2 ^ (-e)`. -/
def scale (num den : Nat) (e : Int) : Nat × Nat :=
  if 0 ≤ e then (num, den * twoTo e.toNat) else (num * twoTo (-e).toNat, den)

/-- The exponent at which `num / den` has 53 bits before the point, or the least
one of the format. -/
def lastPlace (num den : Nat) : Int :=
  let e : Int := (num.log2 : Int) - den.log2 - 52
  let (n, d) := scale num den e
  max (-1074) (if n < d * leadingBit then e - 1 else e)

/-- The quotient rounded to the nearest integer, a half to the even one. -/
def roundHalfEven (num den : Nat) : Nat :=
  let q := num / den
  let twice := 2 * (num % den)
  if den < twice then q + 1
  else if twice = den then q + q % 2
  else q

/-- The double nearest to `num / den`, unless that is beyond the finite ones. -/
def ofRatio? (negative : Bool) (num den : Nat) : Option Binary64 :=
  let e := lastPlace num den
  let scaled := scale num den e
  let magnitude := if num = 0 then 0
    else (e + 1074).toNat * leadingBit + roundHalfEven scaled.1 scaled.2
  if h : magnitude < 0x7FF0000000000000 then some ⟨negative, magnitude, h⟩ else none

/-- The double nearest to `digits * 10 ^ exp10`.  Beyond the range of the format
the power of ten is not computed. -/
def ofDecimal? (negative : Bool) (digits : Nat) (exp10 : Int) : Option Binary64 :=
  if digits = 0 then some (zero negative)
  else
    let size : Int := digits.log2 / 4
    if 400 < exp10 then none
    else if exp10 + 4 * size + 4 < -400 then some (zero negative)
    else if 0 ≤ exp10 then ofRatio? negative (digits * tenTo exp10.toNat) 1
    else ofRatio? negative digits (tenTo (-exp10).toNat)

/-- The double nearest to an integer of at most 64 bits. -/
def ofInt? (i : Int) : Option Binary64 :=
  ofRatio? (decide (i < 0)) i.natAbs 1

end Binary64

end ObjectGraph
