import ObjectGraph.Number.Binary64

/-!
# The shortest decimal of a double

Among the decimals that round to a given positive double, those with the fewest
digits, and of them the nearest one, an exact tie going to the even last digit.
For `n` digits only the two neighbours of the value on the grid of `n`-digit
decimals can be meant, so `shortest` tries `n = 1, 2, …, 17` and takes the first
grid with a hit.
-/

namespace ObjectGraph

/-- The decimal `digits * 10 ^ exponent`. -/
structure Decimal where
  digits : Nat
  exponent : Int
  deriving DecidableEq

namespace Decimal

/-- Moves the trailing zeros of the digits into the exponent; the fuel is the
number of digits. -/
def normalize (fuel : Nat) (d : Decimal) : Decimal :=
  match fuel with
  | 0 => d
  | fuel + 1 =>
    if d.digits % 10 = 0 ∧ d.digits ≠ 0 then
      normalize fuel ⟨d.digits / 10, d.exponent + 1⟩
    else d

end Decimal

namespace Binary64

/-- The number of decimal digits of a natural number; zero has one. -/
def digitCount (n : Nat) : Nat :=
  (Nat.toDigits 10 n).length

/-- A positive fraction `num / den`. -/
structure Fraction where
  num : Nat
  den : Nat

/-- The absolute value of a double. -/
def abs (x : Binary64) : Fraction :=
  ⟨x.significand * twoTo x.exponent, twoTo 1074⟩

/-- Whether `digits * 10 ^ exp10` rounds to the double with this magnitude: it
lies between the middles to both neighbours, which count where the last bit of
the double is zero. -/
def roundsTo (x : Binary64) (digits : Nat) (exp10 : Int) : Bool :=
  -- Everything in quarters of the unit `2 ^ (-1074)`.
  let unit := twoTo x.exponent
  let mid := 4 * x.significand * unit
  let below := if x.magnitude % leadingBit = 0 ∧ leadingBit < x.magnitude then unit
    else 2 * unit
  let low := mid - below
  let high := mid + 2 * unit
  let num := if 0 ≤ exp10 then digits * tenTo exp10.toNat else digits
  let den := if 0 ≤ exp10 then 1 else tenTo (-exp10).toNat
  let value := 4 * num * twoTo 1074
  if x.significand % 2 = 0 then low * den ≤ value && value ≤ high * den
  else low * den < value && value < high * den

/-- The power of ten just above the value: `10 ^ (k - 1) ≤ num / den < 10 ^ k`. -/
def decimalPoint (f : Fraction) : Int :=
  if f.den ≤ f.num then digitCount (f.num / f.den)
  else 1 - (digitCount ((f.den - 1) / f.num) : Int)

/-- The hit on the grid with step `10 ^ exp10`, if there is one. -/
def onGrid? (x : Binary64) (exp10 : Int) : Option Decimal :=
  let f := x.abs
  let num := if 0 ≤ exp10 then f.num else f.num * tenTo (-exp10).toNat
  let den := if 0 ≤ exp10 then f.den * tenTo exp10.toNat else f.den
  let below := num / den
  let twice := 2 * (num % den)
  let nearer := if twice < den ∨ (twice = den ∧ below % 2 = 0) then below else below + 1
  let farther := if nearer = below then below + 1 else below
  if roundsTo x nearer exp10 then some ⟨nearer, exp10⟩
  else if roundsTo x farther exp10 then some ⟨farther, exp10⟩
  else none

/-- The decimal with the fewest digits that rounds to the double. -/
def shortest (x : Binary64) : Decimal :=
  if x.magnitude = 0 then ⟨0, 0⟩
  else
    let k := decimalPoint x.abs
    let hit := (List.range 17).findSome? fun (n : Nat) => onGrid? x (k - (n + 1))
    match hit with
    | some d => d.normalize (digitCount d.digits)
    | none => ⟨0, 0⟩

end Binary64

end ObjectGraph
