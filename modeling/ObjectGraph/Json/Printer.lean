import ObjectGraph.Json.Value
import ObjectGraph.Number.Notation

/-!
# JSON text

The compact text of a value: no layout, members in their order, and in strings
only the quotation mark, the backslash and the control characters below U+0020
escaped.
-/

namespace ObjectGraph.Json

/-- The text of a number. -/
def Number.text : Number → String
  | .int i => toString i
  | .double x => x.text

/-- A hexadecimal digit in lower case. -/
def hexDigit (n : Nat) : Char :=
  if n < 10 then Char.ofNat ('0'.toNat + n) else Char.ofNat ('a'.toNat + (n - 10))

/-- A character inside a string. -/
def escapeChar (c : Char) : List Char :=
  match c with
  | '"' => ['\\', '"']
  | '\\' => ['\\', '\\']
  | '\n' => ['\\', 'n']
  | '\r' => ['\\', 'r']
  | '\t' => ['\\', 't']
  | '\x08' => ['\\', 'b']
  | '\x0c' => ['\\', 'f']
  | c =>
    if c.toNat < 0x20 then
      ['\\', 'u', '0', '0', hexDigit (c.toNat / 16), hexDigit (c.toNat % 16)]
    else [c]

/-- The text of a string with its quotation marks. -/
def quote (s : String) : String :=
  String.ofList ('"' :: s.toList.flatMap escapeChar ++ ['"'])

namespace Value

mutual

/-- The compact text of a value. -/
def text : Value → String
  | .null => "null"
  | .bool b => if b then "true" else "false"
  | .num n => n.text
  | .str s => quote s
  | .arr items => "[" ++ ",".intercalate (textItems items) ++ "]"
  | .obj members => "\x7b" ++ ",".intercalate (textMembers members) ++ "\x7d"

/-- The texts of the items of an array. -/
def textItems : List Value → List String
  | [] => []
  | v :: rest => text v :: textItems rest

/-- The texts of the members of an object. -/
def textMembers : List (String × Value) → List String
  | [] => []
  | (k, v) :: rest => (quote k ++ ":" ++ text v) :: textMembers rest

end

end Value

end ObjectGraph.Json
