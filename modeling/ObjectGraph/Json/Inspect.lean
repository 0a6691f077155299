import ObjectGraph.Json.Printer
import ObjectGraph.Text.Quoted

/-!
# JSON values in messages

The form in which a message shows a value it does not accept: each value behind
the name of its kind, strings as `Text.inspect` writes them.
-/

namespace ObjectGraph.Json.Value

mutual

/-- A value in a message. -/
def inspect : Value → String
  | .null => "Null"
  | .bool b => "Bool(" ++ (if b then "true" else "false") ++ ")"
  | .num n => "Number(" ++ n.text ++ ")"
  | .str s => "String(" ++ Text.inspect s ++ ")"
  | .arr items => "Array [" ++ ", ".intercalate (inspectItems items) ++ "]"
  | .obj members => "Object \x7b" ++ ", ".intercalate (inspectMembers members) ++ "\x7d"

/-- The items of an array in a message. -/
def inspectItems : List Value → List String
  | [] => []
  | v :: rest => inspect v :: inspectItems rest

/-- The members of an object in a message. -/
def inspectMembers : List (String × Value) → List String
  | [] => []
  | (k, v) :: rest => (Text.inspect k ++ ": " ++ inspect v) :: inspectMembers rest

end

end ObjectGraph.Json.Value
