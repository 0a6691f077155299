import ObjectGraph.Error
import ObjectGraph.Json.Record
import ObjectGraph.Sparql.Term

/-!
# Conditions

What a constraint says of one key: that it has a value, that it stands in a
relation to some values, that it shares a variable with other entities, or that
a computed key tells whether a pattern matches.
-/

namespace ObjectGraph

open Json (Value Object)

/-- A relation between a property and the values of a condition. -/
inductive Relation where
  | equal | notEqual | after | before | between | any | notAny
  | contains | notContains | startWith | endWith | regEx
  | exist | notExist
  deriving DecidableEq

namespace Relation

def name : Relation → String
  | .equal => "equal"
  | .notEqual => "notEqual"
  | .after => "after"
  | .before => "before"
  | .between => "between"
  | .any => "any"
  | .notAny => "notAny"
  | .contains => "contains"
  | .notContains => "notContains"
  | .startWith => "startWith"
  | .endWith => "endWith"
  | .regEx => "regEx"
  | .exist => "exist"
  | .notExist => "notExist"

def all : List Relation :=
  [.equal, .notEqual, .after, .before, .between, .any, .notAny, .contains, .notContains,
   .startWith, .endWith, .regEx, .exist, .notExist]

/-- The relation with a name. -/
def ofName? (s : String) : Option Relation :=
  all.find? (·.name == s)

/-- Whether a relation only asks for a value to be there. -/
def isExistence : Relation → Bool
  | .exist | .notExist => true
  | _ => false

end Relation

/-- Whether a computed key tells that a pattern matches or that it does not. -/
inductive BindRelation where
  | exist | notExist
  deriving DecidableEq

/-- A triple of a computed key, as it is written: a name behind a question mark
is a variable, anything else an IRI in full or compact form. -/
structure BindTriple where
  subject : String
  predicate : String
  object : String
  deriving DecidableEq

/-- Reads a triple of a computed key. -/
def BindTriple.ofJson? (v : Value) : Option BindTriple := do
  match ← Json.fields? ["subject", "predicate", "object"] v with
  | [subject, predicate, object] => do
    some ⟨← Json.required Value.readText? subject, ← Json.required Value.readText? predicate,
      ← Json.required Value.readText? object⟩
  | _ => none

/-- What a constraint says of a key. -/
inductive Condition where
  | value (v : Value)
  /-- The variable that other entities know by this name. -/
  | shared (name : String)
  /-- A relation to some values. -/
  | related (relation : Relation) (values : List Value)
  /-- A computed key: whether a pattern matches. -/
  | computed (relation : BindRelation) (triples : List BindTriple)

namespace Condition

/-- Reads the condition of a computed key. -/
def parseBind (bind : Value) : Except Malformation Condition := do
  let relation ←
    match (bind.member? "relation").bind Value.asText? with
    | some "exists" | some "exist" => .ok BindRelation.exist
    | some "notExists" | some "notExist" => .ok BindRelation.notExist
    | other => .error (.unknownBindRelation other)
  match bind.member? "triples" with
  | none => .ok (.computed relation [])
  | some triples =>
    match triples.readList? BindTriple.ofJson? with
    | some ts => .ok (.computed relation ts)
    | none => .error .badBindTriples

/-- The values of a relation: none for null, the items of an array. -/
def relationValues : Option Value → List Value
  | none | some .null => []
  | some v => v.itemsOrSelf

/-- Reads a relation and its values. -/
def parseRelation (members : Object) (name : Value) : Except Malformation Condition :=
  let name := name.asText?.getD ""
  match Relation.ofName? name with
  | none => .error (.unknownRelation name)
  | some relation =>
    let values := relationValues (members.get? "value")
    if values.isEmpty && !relation.isExistence then .error (.missingValue name)
    else if relation = .between ∧ values.length ≠ 2 then .error .notTwoValues
    else .ok (.related relation values)

/-- Reads a condition: a name behind a question mark is shared, an array asks for
any of its items, an object may hold a computed key or a relation, and null is
none. -/
def parse (v : Value) : Except Malformation Condition :=
  match v with
  | .null => .error .nullCondition
  | .str s =>
    match s.toList with
    | '?' :: c :: rest => .ok (.shared (String.ofList (c :: rest)))
    | _ => .ok (.value v)
  | .arr items => .ok (.related .any items)
  | .obj members =>
    match Assoc.get? members "bind", Assoc.get? members "relation" with
    | some bind, _ => parseBind bind
    | none, some name => parseRelation members name
    | none, none => .ok (.value v)
  | v => .ok (.value v)

/-- Whether a condition restricts the values of its key. -/
def narrows : Condition → Bool
  | .value _ | .shared _ => true
  | .related relation _ => !relation.isExistence
  | .computed _ _ => false

/-- The name that a condition shares. -/
def sharedName? : Condition → Option String
  | .shared name => some name
  | _ => none

def isComputed : Condition → Bool
  | .computed _ _ => true
  | _ => false

end Condition

end ObjectGraph
