import ObjectGraph.Json.Record
import ObjectGraph.Namespaces

/-!
# Schemas

A schema describes one class of resources: the type of each property, the
predicate it is stored under, and the properties that every resource has.  A
property's type and format make its kind, which decides how its values are
written to and read from a graph.
-/

namespace ObjectGraph

open Json (Value Object)

/-- What the values of a property are. -/
inductive Kind where
  | iri
  | dateTime
  | integer
  | number
  | boolean
  | string
  /-- A nested object, which a graph refers to by its IRI. -/
  | object
  | array (items : Kind)
  deriving DecidableEq

namespace Kind

def isArray : Kind → Bool
  | .array _ => true
  | _ => false

/-- The kind of the innermost items of an array, or the kind itself. -/
def element : Kind → Kind
  | .array items => items.element
  | k => k

/-- Whether values refer to nodes rather than being literals. -/
def isReference (k : Kind) : Bool :=
  match k.element with
  | .iri | .object => true
  | _ => false

end Kind

/-- The description of a property. -/
structure PropertySchema where
  type : Option String := none
  format : Option String := none
  items : Option PropertySchema := none
  valueModifiability : Option String := none
  shapeModifiability : Option String := none
  title : Option String := none
  description : Option String := none
  default : Option Value := none

namespace PropertySchema

/-- The kind that a type and a format make; `items` is the kind of the items. -/
def kindFrom (type format : Option String) (items : Kind) : Kind :=
  if type = some "array" then .array items
  else if format = some "iri" then .iri
  else if format = some "date-time" then .dateTime
  else if type = some "integer" then .integer
  else if type = some "number" then .number
  else if type = some "boolean" then .boolean
  else if type = some "object" then .object
  else .string

/-- The kind of the values of a property; items that are not described are
strings. -/
def kind : PropertySchema → Kind
  | ⟨type, format, none, _, _, _, _, _⟩ => kindFrom type format .string
  | ⟨type, format, some items, _, _, _, _, _⟩ => kindFrom type format items.kind

def fieldNames : List String :=
  ["type", "format", "items", "valueModifiability", "shapeModifiability", "title",
   "description", "default"]

/-- Reads the fields other than the items, which are given as already read. -/
def ofFields? (fields : List (Option Value)) (items : Option PropertySchema) :
    Option PropertySchema := do
  match fields with
  | [type, format, _, valueModifiability, shapeModifiability, title, description,
      default] => do
    some {
      type := ← Json.optional Value.readText? type
      format := ← Json.optional Value.readText? format
      items := items
      valueModifiability := ← Json.optional Value.readText? valueModifiability
      shapeModifiability := ← Json.optional Value.readText? shapeModifiability
      title := ← Json.optional Value.readText? title
      description := ← Json.optional Value.readText? description
      default := ← Json.optional some default }
  | _ => none

mutual

/-- Reads the description of a property. -/
def ofJson? : Value → Option PropertySchema
  | .obj members => do
    let fields ← Json.fields? fieldNames (.obj members)
    let items ← itemsMember? members
    ofFields? fields items
  | .arr values => do
    let fields ← Json.fields? fieldNames (.arr values)
    let items ← itemsAt? values 2
    ofFields? fields items
  | _ => none

/-- Reads the items among the members of a description. -/
def itemsMember? : List (String × Value) → Option (Option PropertySchema)
  | [] => some none
  | (k, v) :: rest =>
    if k = "items" then
      if v.isNull then some none else (ofJson? v).map some
    else itemsMember? rest

/-- Reads the items at a place among the fields of a description. -/
def itemsAt? : List Value → Nat → Option (Option PropertySchema)
  | [], _ => some none
  | v :: _, 0 => if v.isNull then some none else (ofJson? v).map some
  | _ :: rest, n + 1 => itemsAt? rest n

end

/-- Writes the description of a property; what is absent is left out. -/
def toJson : PropertySchema → Value
  | ⟨type, format, items, valueModifiability, shapeModifiability, title, description,
      default⟩ =>
    let items :=
      match items with
      | none => []
      | some items => [("items", items.toJson)]
    .obj (Json.memberIfSome "type" .str type ++ Json.memberIfSome "format" .str format ++
      items ++ Json.memberIfSome "valueModifiability" .str valueModifiability ++
      Json.memberIfSome "shapeModifiability" .str shapeModifiability ++
      Json.memberIfSome "title" .str title ++
      Json.memberIfSome "description" .str description ++
      Json.memberIfSome "default" id default)

end PropertySchema

/-- The predicate that a property is stored under; a reverse one has the entity
as its object. -/
structure Mapping where
  iri : String
  reverse : Bool
  deriving DecidableEq

/-- The schema of an entity. -/
structure Schema where
  id : String := ""
  type : Option String := none
  targetClass : Option String := none
  context : Object := []
  properties : Assoc PropertySchema := []
  required : List String := []

namespace Schema

def property? (s : Schema) (key : String) : Option PropertySchema :=
  s.properties.get? key

def hasProperty (s : Schema) (key : String) : Bool :=
  s.properties.contains key

def isRequired (s : Schema) (key : String) : Bool :=
  s.required.contains key

/-- Whether a key is the identity or the type of an entity. -/
def isKeyword (key : String) : Bool :=
  key == "@id" || key == "@type"

/-- Whether a key is the identity, the type or a property. -/
def knows (s : Schema) (key : String) : Bool :=
  isKeyword key || s.hasProperty key

/-- The kind of a key: identity and type are IRIs, unknown keys strings. -/
def kindOf (s : Schema) (key : String) : Kind :=
  if isKeyword key then .iri
  else
    match s.property? key with
    | some p => p.kind
    | none => .string

/-- The predicate of a key: its entry in the context is an IRI, or an object that
gives one under `@reverse` or else under `@id`. -/
def mapping? (s : Schema) (ns : Namespaces) (key : String) : Option Mapping :=
  match s.context.get? key with
  | some (.str iri) => some ⟨ns.expand iri, false⟩
  | some (.obj entry) =>
    match (Assoc.get? entry "@reverse").bind Value.asText? with
    | some iri => some ⟨ns.expand iri, true⟩
    | none =>
      ((Assoc.get? entry "@id").bind Value.asText?).map fun iri => ⟨ns.expand iri, false⟩
  | _ => none

/-- The class that a schema describes. -/
def classIri? (s : Schema) (ns : Namespaces) : Option String :=
  s.targetClass.map ns.expand

def fieldNames : List String :=
  ["@id", "@type", "targetClass", "@context", "properties", "required"]

/-- Reads a schema. -/
def ofJson? (v : Value) : Option Schema := do
  match ← Json.fields? fieldNames v with
  | [id, type, targetClass, context, properties, required] => do
    some {
      id := ← Json.withDefault "" Value.readText? id
      type := ← Json.optional Value.readText? type
      targetClass := ← Json.optional Value.readText? targetClass
      context := ← Json.withDefault [] Value.readObject? context
      properties := ← Json.withDefault [] (Value.readAssoc? PropertySchema.ofJson?) properties
      required := ← Json.withDefault [] (Value.readList? Value.readText?) required }
  | _ => none

/-- Writes a schema. -/
def toJson (s : Schema) : Value :=
  .obj ([("@id", .str s.id)] ++ Json.memberIfSome "@type" .str s.type ++
    Json.memberIfSome "targetClass" .str s.targetClass ++
    [("@context", .obj s.context),
     ("properties", .obj (s.properties.map fun (k, p) => (k, p.toJson))),
     ("required", .arr (s.required.map .str))])

end Schema

/-- Schemas that constraints can refer to by their identity, the last one of an
identity counting. -/
structure SchemaCatalog where
  schemas : List Schema

/-- The schema with an identity. -/
def SchemaCatalog.get? (catalog : SchemaCatalog) (id : String) : Option Schema :=
  catalog.schemas.reverse.find? (·.id == id)

end ObjectGraph
