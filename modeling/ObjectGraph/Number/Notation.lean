import ObjectGraph.Number.Shortest

/-!
# Number text

The text of a double: its shortest decimal, written with a point and at least
one digit behind it from `1e-5` up to below `1e16`, and as a significand with a
signed exponent elsewhere.  Reading goes by grammars of its own: `readInteger?`
takes an optional sign and digits, `readDouble?` also a point and an exponent.
-/

namespace ObjectGraph

/-- Digits as a natural number. -/
def natOfDigits (ds : List Char) : Nat :=
  ds.foldl (fun n c => 10 * n + (c.toNat - '0'.toNat)) 0

namespace Binary64

/-- The text of a positive decimal with the given digits; `point` is the number
of digits before the point, which may lie outside the digits. -/
def layout (ds : List Char) (point : Int) : List Char :=
  let size : Int := ds.length
  if -5 < point ∧ point ≤ 16 then
    if size ≤ point then ds ++ List.replicate (point - size).toNat '0' ++ ['.', '0']
    else if 0 < point then ds.take point.toNat ++ '.' :: ds.drop point.toNat
    else ['0', '.'] ++ List.replicate (-point).toNat '0' ++ ds
  else
    let exponent := point - 1
    let sign := if exponent < 0 then '-' else '+'
    let fraction := if ds.length ≤ 1 then [] else '.' :: ds.drop 1
    ds.take 1 ++ fraction ++ ['e', sign] ++ Nat.toDigits 10 exponent.natAbs

/-- The text of a double. -/
def text (x : Binary64) : String :=
  let sign := if x.negative then ['-'] else []
  if x.magnitude = 0 then String.ofList (sign ++ ['0', '.', '0'])
  else
    let d := x.shortest
    let ds := Nat.toDigits 10 d.digits
    String.ofList (sign ++ layout ds (ds.length + d.exponent))

end Binary64

/-- An optional sign and what follows it. -/
def readSign : List Char → Bool × List Char
  | '-' :: rest => (true, rest)
  | '+' :: rest => (false, rest)
  | cs => (false, cs)

/-- The integer that a sign and digits stand for. -/
def signedInt (negative : Bool) (n : Nat) : Int :=
  if negative then -(n : Int) else n

/-- Reads an optional sign and at least one digit as an integer of 64 bits. -/
def readInteger? (cs : List Char) : Option Int :=
  let (negative, ds) := readSign cs
  if ds.isEmpty || !ds.all Char.isDigit then none
  else
    let i := signedInt negative (natOfDigits ds)
    if isSigned64 i then some i else none

/-- Reads the exponent of a decimal: nothing, or a letter `e`, an optional sign
and at least one digit. -/
def readExponent? : List Char → Option Int
  | [] => some 0
  | e :: rest =>
    if e = 'e' ∨ e = 'E' then
      let (negative, ds) := readSign rest
      if ds.isEmpty || !ds.all Char.isDigit then none
      else some (signedInt negative (natOfDigits ds))
    else none

/-- Reads a decimal as the nearest double: an optional sign, digits with at most
one point among them, and an optional exponent. -/
def readDouble? (cs : List Char) : Option Binary64 :=
  let (negative, rest) := readSign cs
  let whole := rest.takeWhile Char.isDigit
  let rest := rest.dropWhile Char.isDigit
  let (fraction, rest) :=
    match rest with
    | '.' :: tail => (tail.takeWhile Char.isDigit, tail.dropWhile Char.isDigit)
    | _ => ([], rest)
  if whole.isEmpty && fraction.isEmpty then none
  else do
    let exponent ← readExponent? rest
    Binary64.ofDecimal? negative (natOfDigits (whole ++ fraction)) (exponent - fraction.length)

end ObjectGraph
