import ObjectGraph.Json.Value

/-!
# Records in JSON

A record is given as an object, whose further members do not count, or as an
array of its fields in order, which may end early but not run over.  `fields?`
brings both forms to a list of fields that are there or not; the readers below
say for each field whether it may be absent and whether it may be null.
Nothing is converted: a number is no text and `1.0` is no natural number.
-/

namespace ObjectGraph.Json

/-- The fields of a record with these names. -/
def fields? (names : List String) : Value → Option (List (Option Value))
  | .obj members => some (names.map (Assoc.get? members))
  | .arr items =>
    if items.length ≤ names.length then
      some (items.map some ++ List.replicate (names.length - items.length) none)
    else none
  | _ => none

namespace Value

def readText? : Value → Option String
  | .str s => some s
  | _ => none

def readBool? : Value → Option Bool
  | .bool b => some b
  | _ => none

/-- Reads a natural number of 64 bits. -/
def readNat? : Value → Option Nat
  | .num (.int i) => if isUnsigned64 i then some i.toNat else none
  | _ => none

def readObject? : Value → Option Object
  | .obj members => some members
  | _ => none

/-- Reads an array item by item. -/
def readList? {α : Type} (read : Value → Option α) : Value → Option (List α)
  | .arr items => items.mapM read
  | _ => none

/-- Reads the values of an object; the keys keep their order. -/
def readAssoc? {α : Type} (read : Value → Option α) : Value → Option (Assoc α)
  | .obj members => members.mapM fun (k, v) => (read v).map fun a => (k, a)
  | _ => none

end Value

variable {α : Type}

/-- A field that must be there. -/
def required (read : Value → Option α) (field : Option Value) : Option α :=
  field.bind read

/-- A field with a value of its own where it is absent. -/
def withDefault (default : α) (read : Value → Option α) (field : Option Value) : Option α :=
  match field with
  | none => some default
  | some v => read v

/-- A field that may be absent or null. -/
def optional (read : Value → Option α) (field : Option Value) : Option (Option α) :=
  match field with
  | none => some none
  | some .null => some none
  | some v => (read v).map some

/-- A member that is left out where there is no value. -/
def memberIfSome (key : String) (write : α → Value) (value : Option α) : Object :=
  match value with
  | none => []
  | some a => [(key, write a)]

/-- A natural number as a value. -/
def Value.ofNat (n : Nat) : Value := .num (.int n)

end ObjectGraph.Json
