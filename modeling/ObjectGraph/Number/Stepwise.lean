import ObjectGraph.Number.Shortest

/-!
# Decimals rounded step by step

A decimal is read here with the arithmetic of doubles.  Its digits count as long
as 64 bits hold the number they make; of the others only the places before the
point count, as a power of ten.  The number is rounded to a double, which is then
multiplied by the double of a power of ten, or divided by it, and each step rounds
once more.  So the result can be a neighbour of the nearest double; up to
`2 ^ 53` and `10 ^ 22` in either direction no step but the last one rounds, and
it is the nearest one.
-/

namespace ObjectGraph

namespace Binary64

/-- The double nearest to the product, unless that is beyond the finite ones. -/
def mul? (x y : Binary64) : Option Binary64 :=
  ofRatio? (x.negative != y.negative) (x.abs.num * y.abs.num) (x.abs.den * y.abs.den)

/-- The double nearest to the quotient by a double other than zero, unless that is
beyond the finite ones. -/
def div? (x y : Binary64) : Option Binary64 :=
  ofRatio? (x.negative != y.negative) (x.abs.num * y.abs.den) (x.abs.den * y.abs.num)

/-- The double nearest to a power of ten; `10 ^ 308` is the last finite one. -/
def powerOfTen? (n : Nat) : Option Binary64 :=
  ofRatio? false (tenTo n) 1

/-- A double times a power of ten.  What is left of 64 bits after two divisions by
`10 ^ 308` is zero, so there is no third one. -/
def timesPowerOfTen? (x : Binary64) (exp10 : Int) : Option Binary64 :=
  if x.magnitude = 0 ∨ exp10 < -616 then some (zero x.negative)
  else if 308 < exp10 then none
  else if 0 ≤ exp10 then do x.mul? (← powerOfTen? exp10.toNat)
  else if -308 ≤ exp10 then do x.div? (← powerOfTen? (-exp10).toNat)
  else do
    let y ← x.div? (← powerOfTen? 308)
    y.div? (← powerOfTen? (-exp10 - 308).toNat)

/-- Puts digits behind a number as long as 64 bits hold it, and counts those that
are left. -/
def takeDigits (n : Nat) : List Char → Nat × Nat
  | [] => (n, 0)
  | d :: rest =>
    let next := 10 * n + (d.toNat - '0'.toNat)
    if isUnsigned64 next then takeDigits next rest else (n, rest.length + 1)

/-- The double that digits before and behind a point and an exponent make, rounded
step by step. -/
def ofDigits? (negative : Bool) (whole fraction : List Char) (exponent : Int) :
    Option Binary64 := do
  let (n, places) := takeDigits 0 whole
  let (n, unread) := takeDigits n fraction
  let x ← ofRatio? negative n 1
  x.timesPowerOfTen? (exponent + places + unread - fraction.length)

end Binary64

end ObjectGraph
