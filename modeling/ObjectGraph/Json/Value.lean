import ObjectGraph.Assoc
import ObjectGraph.Number.Binary64

/-!
# JSON values

A number is an integer or a double, and the two are never equal.  Objects keep
the order of their members, which printing shows; `Value.same`, the equality of
values, does not look at it.
-/

namespace ObjectGraph.Json

/-- A JSON number: written without fraction and exponent, or a double. -/
inductive Number where
  | int (i : Int)
  | double (x : Binary64)
  deriving DecidableEq

/-- A JSON value; the members of an object are in the order of their keys'
first appearance. -/
inductive Value where
  | null
  | bool (b : Bool)
  | num (n : Number)
  | str (s : String)
  | arr (items : List Value)
  | obj (members : List (String × Value))

instance : Inhabited Value := ⟨.null⟩

/-- The members of a JSON object. -/
abbrev Object := Assoc Value

/-- Equality of numbers: doubles by value, so that the two zeros are equal. -/
def Number.same : Number → Number → Bool
  | .int i, .int j => i == j
  | .double x, .double y => x.sameValue y
  | _, _ => false

namespace Value

mutual

/-- Equality of values: objects are equal when each member of one has an equal
in the other. -/
def same : Value → Value → Bool
  | .null, .null => true
  | .bool a, .bool b => a == b
  | .num m, .num n => m.same n
  | .str s, .str t => s == t
  | .arr xs, .arr ys => sameItems xs ys
  | .obj xs, .obj ys => xs.length == ys.length && sameMembers xs ys
  | _, _ => false

/-- Equality of lists of values, place by place. -/
def sameItems : List Value → List Value → Bool
  | [], [] => true
  | x :: xs, y :: ys => same x y && sameItems xs ys
  | _, _ => false

/-- Whether each of the members has an equal among the others. -/
def sameMembers : List (String × Value) → List (String × Value) → Bool
  | [], _ => true
  | (k, v) :: rest, ys =>
    (match Assoc.get? ys k with
      | some w => same v w
      | none => false) && sameMembers rest ys

end

/-- The text of a string value. -/
def asText? : Value → Option String
  | .str s => some s
  | _ => none

/-- The members of an object value. -/
def asObject? : Value → Option Object
  | .obj members => some members
  | _ => none

/-- The value of a member, of an object that has it. -/
def member? (v : Value) (key : String) : Option Value :=
  match v with
  | .obj members => Assoc.get? members key
  | _ => none

/-- Whether the value is the null value. -/
def isNull : Value → Bool
  | .null => true
  | _ => false

/-- The items of an array, and any other value as its own only item. -/
def itemsOrSelf : Value → List Value
  | .arr items => items
  | v => [v]

/-- One value as itself, any other number of values as an array. -/
def ofItems : List Value → Value
  | [v] => v
  | vs => .arr vs

/-- Whether a list holds an equal of a value. -/
def isIn (v : Value) (vs : List Value) : Bool :=
  vs.any (same · v)

/-- Adds a value behind the others unless an equal is there. -/
def addNew (vs : List Value) (v : Value) : List Value :=
  if v.isIn vs then vs else vs ++ [v]

end Value

end ObjectGraph.Json
