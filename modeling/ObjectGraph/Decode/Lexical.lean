import ObjectGraph.Json.Value
import ObjectGraph.Number.Notation
import ObjectGraph.Text.Blank

/-!
# Lexical forms

The JSON value that a lexical form stands for; blanks around it do not count.  A
form that is none of the datatype is kept as a text.
-/

namespace ObjectGraph.Lexical

open Json (Value)

/-- A lexical form as an integer. -/
def integer (s : String) : Value :=
  match readInteger? (Text.trimChars s.toList) with
  | some i => .num (.int i)
  | none => .str s

/-- A lexical form as a double. -/
def number (s : String) : Value :=
  match readDouble? (Text.trimChars s.toList) with
  | some x => .num (.double x)
  | none => .str s

/-- A lexical form as a truth value. -/
def boolean (s : String) : Value :=
  let t := Text.trimBlanks s
  if t = "true" ∨ t = "1" then .bool true
  else if t = "false" ∨ t = "0" then .bool false
  else .str s

end ObjectGraph.Lexical
