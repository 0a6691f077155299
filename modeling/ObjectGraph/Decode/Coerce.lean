import ObjectGraph.Decode.Lexical
import ObjectGraph.Schema

/-!
# Values of a kind

A value that was written under a context is brought to the kind of its property:
an array exactly where the kind is one, taken out of the object that carries its
datatype, and read by its lexical form.
-/

namespace ObjectGraph

open Json (Value)

/-- A value within as many arrays as the kind has. -/
def Kind.nest : Kind → Value → Value
  | .array items, v => .arr [items.nest v]
  | _, v => v

namespace Decode

/-- A text by the kind of its property. -/
def textOfKind (s : String) : Kind → Value
  | .integer => Lexical.integer s
  | .number => Lexical.number s
  | .boolean => Lexical.boolean s
  | _ => .str s

mutual

/-- Brings a value to a kind.  Of an array where the kind is none, the first item
counts; a value in a language stays an object. -/
def coerce : Value → Kind → Value
  | .arr vs, .array items => .arr (coerceItems vs items)
  | .arr vs, kind => coerceFirst vs kind
  | .obj members, kind =>
    if Assoc.contains members "@language" then kind.nest (.obj members)
    else
      match coerceWrapped members kind.element with
      | some v => kind.nest v
      | none => kind.nest (.obj members)
  | .str s, kind => kind.nest (textOfKind s kind.element)
  | v, kind => kind.nest v

/-- Brings each item to a kind. -/
def coerceItems : List Value → Kind → List Value
  | [], _ => []
  | v :: rest, kind => coerce v kind :: coerceItems rest kind

/-- Brings the first item to a kind. -/
def coerceFirst : List Value → Kind → Value
  | [], _ => .null
  | v :: _, kind => coerce v kind

/-- Brings the value that an object carries to a kind. -/
def coerceWrapped : List (String × Value) → Kind → Option Value
  | [], _ => none
  | (k, v) :: rest, kind =>
    if k = "@value" then some (coerce v kind) else coerceWrapped rest kind

end

end Decode

end ObjectGraph
