import ObjectGraph.Calendar
import ObjectGraph.Number.Notation

/-!
# Instants

Points in time to the millisecond.  `parse?` reads an RFC 3339 date-time with an
offset: four digits of year, an upper or lower case `T` or a space, any number
of digits of a fraction, of which three count, and an offset below a day that
may have U+2212 as its minus sign.  A second 60 is kept as such.  `text` writes
the instant in UTC with three digits of fraction.
-/

namespace ObjectGraph

/-- A millisecond, counted from 1 January 1970 in UTC; a leap one lies a second
later than its count says. -/
structure Instant where
  millis : Int
  leap : Bool
  deriving DecidableEq

namespace Instant

/-- The first and the last millisecond that have a date. -/
def range : Int × Int :=
  ((Date.toDays ⟨-262143, 1, 1⟩) * 86400000, (Date.toDays ⟨262143, 1, 1⟩) * 86400000 - 1)

/-- The instant a number of milliseconds after the start of 1970. -/
def ofMillis? (millis : Int) : Option Instant :=
  if range.1 ≤ millis ∧ millis ≤ range.2 then some ⟨millis, false⟩ else none

/-- Reads exactly `n` digits. -/
def readDigits? (n : Nat) (cs : List Char) : Option (Nat × List Char) :=
  let ds := cs.take n
  if ds.length = n ∧ ds.all Char.isDigit then some (natOfDigits ds, cs.drop n) else none

/-- Reads a character. -/
def readChar? (c : Char) : List Char → Option (List Char)
  | d :: rest => if d = c then some rest else none
  | [] => none

/-- Reads a number of two digits within bounds. -/
def readPair? (low high : Nat) (cs : List Char) : Option (Nat × List Char) := do
  let (n, rest) ← readDigits? 2 cs
  if low ≤ n ∧ n ≤ high then some (n, rest) else none

/-- Reads a date that exists. -/
def readDate? (cs : List Char) : Option (Date × List Char) := do
  let (year, cs) ← readDigits? 4 cs
  let cs ← readChar? '-' cs
  let (month, cs) ← readPair? 1 12 cs
  let cs ← readChar? '-' cs
  let (day, cs) ← readPair? 1 31 cs
  let date : Date := ⟨year, month, day⟩
  if date.isValid then some (date, cs) else none

/-- Reads the character between date and time. -/
def readSeparator? : List Char → Option (List Char)
  | c :: rest => if c = 'T' ∨ c = 't' ∨ c = ' ' then some rest else none
  | [] => none

/-- Reads a fraction of a second, if there is one, as milliseconds. -/
def readFraction? (cs : List Char) : Option (Nat × List Char) :=
  match cs with
  | '.' :: rest =>
    let ds := rest.takeWhile Char.isDigit
    if ds.isEmpty then none
    else some (natOfDigits ((ds ++ ['0', '0']).take 3), rest.dropWhile Char.isDigit)
  | _ => some (0, cs)

/-- Reads the sign of an offset, true for minus. -/
def readOffsetSign? : List Char → Option (Bool × List Char)
  | c :: rest =>
    if c = '+' then some (false, rest)
    else if c = '-' ∨ c = '\u2212' then some (true, rest)
    else none
  | [] => none

/-- Reads a sign and an offset below a day, in minutes. -/
def readSigned? (cs : List Char) : Option (Int × List Char) := do
  let (negative, cs) ← readOffsetSign? cs
  let (hours, cs) ← readPair? 0 23 cs
  let cs ← readChar? ':' cs
  let (minutes, cs) ← readPair? 0 59 cs
  some (signedInt negative (60 * hours + minutes), cs)

/-- Reads an offset from UTC in minutes. -/
def readOffset? (cs : List Char) : Option (Int × List Char) :=
  match cs with
  | 'Z' :: rest => some (0, rest)
  | 'z' :: rest => some (0, rest)
  | _ => readSigned? cs

/-- Reads a date-time. -/
def parse? (s : String) : Option Instant := do
  let (date, cs) ← readDate? s.toList
  let cs ← readSeparator? cs
  let (hour, cs) ← readPair? 0 23 cs
  let cs ← readChar? ':' cs
  let (minute, cs) ← readPair? 0 59 cs
  let cs ← readChar? ':' cs
  let (second, cs) ← readPair? 0 60 cs
  let (fraction, cs) ← readFraction? cs
  let (offset, cs) ← readOffset? cs
  let leap := second == 60
  let minutes := (date.toDays * 24 + hour) * 60 + minute - offset
  let seconds := minutes * 60 + (if leap then 59 else second)
  if cs.isEmpty then some ⟨seconds * 1000 + fraction, leap⟩ else none

/-- A number with leading zeros. -/
def padded (width n : Nat) : List Char :=
  let ds := Nat.toDigits 10 n
  List.replicate (width - ds.length) '0' ++ ds

/-- A year: four digits, with a sign where they do not suffice. -/
def yearText (year : Int) : List Char :=
  if 0 ≤ year ∧ year ≤ 9999 then padded 4 year.toNat
  else (if year < 0 then '-' else '+') :: padded 4 year.natAbs

/-- The instant in UTC to the millisecond. -/
def text (t : Instant) : String :=
  let seconds := t.millis / 1000
  let date := Date.ofDays (seconds / 86400)
  let ofDay := (seconds % 86400).toNat
  let second := ofDay % 60 + (if t.leap then 1 else 0)
  String.ofList (yearText date.year ++ '-' :: padded 2 date.month ++ '-' :: padded 2 date.day ++
    'T' :: padded 2 (ofDay / 3600) ++ ':' :: padded 2 (ofDay / 60 % 60) ++
    ':' :: padded 2 second ++ '.' :: padded 3 (t.millis % 1000).toNat ++ ['Z'])

end Instant

end ObjectGraph
