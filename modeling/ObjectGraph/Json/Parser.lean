import ObjectGraph.Json.Value
import ObjectGraph.Number.Notation
import ObjectGraph.Number.Stepwise

/-!
# Reading JSON

`parse` reads a whole text as one value.  A number without fraction and exponent
is an integer if 64 bits hold it, signed or unsigned, and a double otherwise;
`-0` is the double, and doubles are rounded step by step.  The last of several
members with one key counts, in the place of the first.  Every step of the reader
takes at least one character, so the number of characters bounds the steps.
-/

namespace ObjectGraph.Json

/-- The blanks that JSON allows between tokens. -/
def isLayout (c : Char) : Bool :=
  c == ' ' || c == '\t' || c == '\n' || c == '\r'

/-- Drops the layout in front. -/
def skipLayout (cs : List Char) : List Char :=
  cs.dropWhile isLayout

/-- The value of a hexadecimal digit. -/
def hexValue? (c : Char) : Option Nat :=
  if '0' ≤ c ∧ c ≤ '9' then some (c.toNat - '0'.toNat)
  else if 'a' ≤ c ∧ c ≤ 'f' then some (c.toNat - 'a'.toNat + 10)
  else if 'A' ≤ c ∧ c ≤ 'F' then some (c.toNat - 'A'.toNat + 10)
  else none

/-- Reads four hexadecimal digits. -/
def readHex4 : List Char → Option (Nat × List Char)
  | a :: b :: c :: d :: rest => do
    let a ← hexValue? a
    let b ← hexValue? b
    let c ← hexValue? c
    let d ← hexValue? d
    some (((a * 16 + b) * 16 + c) * 16 + d, rest)
  | _ => none

/-- Reads the code behind a backslash and `u`, a surrogate together with its
other half. -/
def readCodePoint (cs : List Char) : Option (Char × List Char) := do
  let (high, rest) ← readHex4 cs
  if 0xD800 ≤ high ∧ high < 0xDC00 then
    match rest with
    | '\\' :: 'u' :: rest => do
      let (low, rest) ← readHex4 rest
      if 0xDC00 ≤ low ∧ low < 0xE000 then
        some (Char.ofNat (0x10000 + (high - 0xD800) * 0x400 + (low - 0xDC00)), rest)
      else none
    | _ => none
  else if 0xDC00 ≤ high ∧ high < 0xE000 then none
  else some (Char.ofNat high, rest)

/-- Reads the characters of a string up to its closing quotation mark; `acc`
holds those read, the last one first. -/
def readStringBody (fuel : Nat) (acc : List Char) (cs : List Char) :
    Option (String × List Char) :=
  match fuel, cs with
  | 0, _ => none
  | _ + 1, [] => none
  | _ + 1, '"' :: rest => some (String.ofList acc.reverse, rest)
  | fuel + 1, '\\' :: c :: rest =>
    match c with
    | 'n' => readStringBody fuel ('\n' :: acc) rest
    | 't' => readStringBody fuel ('\t' :: acc) rest
    | 'r' => readStringBody fuel ('\r' :: acc) rest
    | 'b' => readStringBody fuel ('\x08' :: acc) rest
    | 'f' => readStringBody fuel ('\x0c' :: acc) rest
    | '"' => readStringBody fuel ('"' :: acc) rest
    | '\\' => readStringBody fuel ('\\' :: acc) rest
    | '/' => readStringBody fuel ('/' :: acc) rest
    | 'u' =>
      match readCodePoint rest with
      | some (c, rest) => readStringBody fuel (c :: acc) rest
      | none => none
    | _ => none
  | fuel + 1, c :: rest =>
    if c.toNat < 0x20 then none else readStringBody fuel (c :: acc) rest

/-- The number that the digits of its parts stand for. -/
def numberOf (negative : Bool) (whole fraction : List Char) (exponent : Option Int) :
    Option Number :=
  let i := signedInt negative (natOfDigits whole)
  let isInteger := fraction.isEmpty && exponent.isNone && !(negative && i == 0)
  if isInteger && (isSigned64 i || isUnsigned64 i) then some (.int i)
  else (Binary64.ofDigits? negative whole fraction (exponent.getD 0)).map .double

/-- Reads the exponent of a number if there is one. -/
def readExponentPart (cs : List Char) : Option (Option Int × List Char) :=
  match cs with
  | e :: tail =>
    if e = 'e' ∨ e = 'E' then
      let (negative, tail) := readSign tail
      let ds := tail.takeWhile Char.isDigit
      if ds.isEmpty then none
      else some (some (signedInt negative (natOfDigits ds)), tail.dropWhile Char.isDigit)
    else some (none, cs)
  | [] => some (none, cs)

/-- Reads a number: the digits before the point without a leading zero, digits
behind the point if there is one, and an exponent if there is one. -/
def readNumber (cs : List Char) : Option (Number × List Char) := do
  let (negative, rest) :=
    match cs with
    | '-' :: rest => (true, rest)
    | _ => (false, cs)
  let whole := rest.takeWhile Char.isDigit
  let rest := rest.dropWhile Char.isDigit
  if whole.isEmpty || (whole.head? == some '0' && decide (1 < whole.length)) then none
  else do
    let (fraction, rest) ←
      match rest with
      | '.' :: tail =>
        let ds := tail.takeWhile Char.isDigit
        if ds.isEmpty then none else some (ds, tail.dropWhile Char.isDigit)
      | _ => some ([], rest)
    let (exponent, rest) ← readExponentPart rest
    let n ← numberOf negative whole fraction exponent
    some (n, rest)

mutual

/-- Reads a value and the layout in front of it. -/
def readValue (fuel : Nat) (cs : List Char) : Option (Value × List Char) :=
  match fuel with
  | 0 => none
  | fuel + 1 =>
    match skipLayout cs with
    | [] => none
    | '"' :: rest => (readStringBody fuel [] rest).map fun (s, r) => (.str s, r)
    | '[' :: rest =>
      match skipLayout rest with
      | ']' :: rest => some (.arr [], rest)
      | rest => (readItems fuel rest).map fun (vs, r) => (.arr vs, r)
    | '\x7b' :: rest =>
      match skipLayout rest with
      | '\x7d' :: rest => some (.obj [], rest)
      | rest => (readMembers fuel rest).map fun (ms, r) => (.obj (Assoc.ofList ms), r)
    | 'n' :: 'u' :: 'l' :: 'l' :: rest => some (.null, rest)
    | 't' :: 'r' :: 'u' :: 'e' :: rest => some (.bool true, rest)
    | 'f' :: 'a' :: 'l' :: 's' :: 'e' :: rest => some (.bool false, rest)
    | rest => (readNumber rest).map fun (n, r) => (.num n, r)

/-- Reads the items of an array that has at least one. -/
def readItems (fuel : Nat) (cs : List Char) : Option (List Value × List Char) :=
  match fuel with
  | 0 => none
  | fuel + 1 => do
    let (v, rest) ← readValue fuel cs
    match skipLayout rest with
    | ',' :: rest => do
      let (vs, rest) ← readItems fuel rest
      some (v :: vs, rest)
    | ']' :: rest => some ([v], rest)
    | _ => none

/-- Reads the members of an object that has at least one. -/
def readMembers (fuel : Nat) (cs : List Char) :
    Option (List (String × Value) × List Char) :=
  match fuel with
  | 0 => none
  | fuel + 1 =>
    match skipLayout cs with
    | '"' :: rest => do
      let (k, rest) ← readStringBody fuel [] rest
      match skipLayout rest with
      | ':' :: rest => do
        let (v, rest) ← readValue fuel rest
        match skipLayout rest with
        | ',' :: rest => do
          let (ms, rest) ← readMembers fuel rest
          some ((k, v) :: ms, rest)
        | '\x7d' :: rest => some ([(k, v)], rest)
        | _ => none
      | _ => none
    | _ => none

end

/-- Reads a whole text as one value. -/
def parse (text : String) : Option Value := do
  let cs := text.toList
  let (v, rest) ← readValue (2 * cs.length + 2) cs
  if (skipLayout rest).isEmpty then some v else none

end ObjectGraph.Json
