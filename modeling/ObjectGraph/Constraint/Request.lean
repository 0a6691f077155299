import ObjectGraph.Schema

/-!
# Requests

Collection constraints as callers send them: entities with a schema in place or
by its identity, conditions and data as plain values, and a choice of spellings
for the selection and the order.  Reading fails on any other form; writing gives
back the spelling that was read.
-/

namespace ObjectGraph

open Json (Value Object)

/-- A key of an order, ascending unless it says otherwise. -/
structure OrderKey where
  key : String
  descending : Bool
  deriving DecidableEq

/-- A schema in place or by its identity. -/
inductive SchemaRef where
  | byId (id : String)
  | inline (schema : Schema)

/-- The keys to select: a list, or the keys of an object. -/
inductive SelectionRequest where
  | list (keys : List String)
  | object (members : Object)

/-- A key of an order, alone or with its direction. -/
inductive OrderKeyRequest where
  | plain (key : String)
  | directed (key : String) (descending : Bool)

/-- An order: one key or a list of keys. -/
inductive OrderRequest where
  | one (key : OrderKeyRequest)
  | many (keys : List OrderKeyRequest)

/-- The constraint on an entity. -/
structure EntityRequest where
  schema : SchemaRef
  conditions : Object
  selection : Option SelectionRequest
  data : Object
  resolveType : Option Bool
  orderBy : Option OrderRequest
  limit : Option Nat
  offset : Option Nat
  distinct : Option Bool
  service : Option String

/-- The constraint on a collection of entities. -/
structure CollectionRequest where
  id : Option String
  entities : List EntityRequest
  orderBy : Option OrderRequest
  limit : Option Nat
  offset : Option Nat
  distinct : Option Bool
  options : Object

namespace SchemaRef

def ofJson? : Value → Option SchemaRef
  | .str id => some (.byId id)
  | v => (Schema.ofJson? v).map .inline

def toJson : SchemaRef → Value
  | .byId id => .str id
  | .inline schema => schema.toJson

end SchemaRef

namespace SelectionRequest

def ofJson? : Value → Option SelectionRequest
  | .obj members => some (.object members)
  | v => (v.readList? Value.readText?).map .list

def toJson : SelectionRequest → Value
  | .list keys => .arr (keys.map .str)
  | .object members => .obj members

/-- The keys to select. -/
def toKeys : SelectionRequest → List String
  | .list keys => keys
  | .object members => members.keys

end SelectionRequest

namespace OrderKeyRequest

def ofJson? : Value → Option OrderKeyRequest
  | .str key => some (.plain key)
  | .obj members => do
    some (.directed (← Json.required Value.readText? (Assoc.get? members "key"))
      (← Json.withDefault false Value.readBool? (Assoc.get? members "desc")))
  | _ => none

def toJson : OrderKeyRequest → Value
  | .plain key => .str key
  | .directed key descending => .obj [("key", .str key), ("desc", .bool descending)]

def toKey : OrderKeyRequest → OrderKey
  | .plain key => ⟨key, false⟩
  | .directed key descending => ⟨key, descending⟩

end OrderKeyRequest

namespace OrderRequest

def ofJson? : Value → Option OrderRequest
  | .arr items => (items.mapM OrderKeyRequest.ofJson?).map .many
  | v => (OrderKeyRequest.ofJson? v).map .one

def toJson : OrderRequest → Value
  | .one key => key.toJson
  | .many keys => .arr (keys.map OrderKeyRequest.toJson)

def toKeys : OrderRequest → List OrderKey
  | .one key => [key.toKey]
  | .many keys => keys.map OrderKeyRequest.toKey

/-- The keys of an order, none if there is no order. -/
def keysOf (order : Option OrderRequest) : List OrderKey :=
  (order.map toKeys).getD []

end OrderRequest

namespace EntityRequest

def fieldNames : List String :=
  ["schema", "conditions", "variables", "data", "resolveType", "orderBy", "limit", "offset",
   "distinct", "service"]

def ofJson? (v : Value) : Option EntityRequest := do
  match ← Json.fields? fieldNames v with
  | [schema, conditions, selection, data, resolveType, orderBy, limit, offset, distinct,
      service] => do
    some {
      schema := ← Json.required SchemaRef.ofJson? schema
      conditions := ← Json.withDefault [] Value.readObject? conditions
      selection := ← Json.optional SelectionRequest.ofJson? selection
      data := ← Json.withDefault [] Value.readObject? data
      resolveType := ← Json.optional Value.readBool? resolveType
      orderBy := ← Json.optional OrderRequest.ofJson? orderBy
      limit := ← Json.optional Value.readNat? limit
      offset := ← Json.optional Value.readNat? offset
      distinct := ← Json.optional Value.readBool? distinct
      service := ← Json.optional Value.readText? service }
  | _ => none

def toJson (e : EntityRequest) : Value :=
  .obj ([("schema", e.schema.toJson), ("conditions", .obj e.conditions)] ++
    Json.memberIfSome "variables" SelectionRequest.toJson e.selection ++
    [("data", .obj e.data)] ++
    Json.memberIfSome "resolveType" .bool e.resolveType ++
    Json.memberIfSome "orderBy" OrderRequest.toJson e.orderBy ++
    Json.memberIfSome "limit" .ofNat e.limit ++ Json.memberIfSome "offset" .ofNat e.offset ++
    Json.memberIfSome "distinct" .bool e.distinct ++
    Json.memberIfSome "service" .str e.service)

end EntityRequest

namespace CollectionRequest

def fieldNames : List String :=
  ["@id", "entConstrs", "orderBy", "limit", "offset", "distinct", "options"]

/-- The fields of a collection; as a member, the identity has two names, of which
only one may be used. -/
def fields? (v : Value) : Option (List (Option Value)) :=
  match v with
  | .obj members =>
    match Assoc.get? members "id" with
    | none => Json.fields? fieldNames v
    | some id =>
      if Assoc.contains members "@id" then none
      else Json.fields? fieldNames (.obj (("@id", id) :: members))
  | v => Json.fields? fieldNames v

def ofJson? (v : Value) : Option CollectionRequest := do
  match ← fields? v with
  | [id, entities, orderBy, limit, offset, distinct, options] => do
    some {
      id := ← Json.optional Value.readText? id
      entities := ← Json.required (Value.readList? EntityRequest.ofJson?) entities
      orderBy := ← Json.optional OrderRequest.ofJson? orderBy
      limit := ← Json.optional Value.readNat? limit
      offset := ← Json.optional Value.readNat? offset
      distinct := ← Json.optional Value.readBool? distinct
      options := ← Json.withDefault [] Value.readObject? options }
  | _ => none

def toJson (c : CollectionRequest) : Value :=
  .obj (Json.memberIfSome "@id" .str c.id ++
    [("entConstrs", .arr (c.entities.map EntityRequest.toJson))] ++
    Json.memberIfSome "orderBy" OrderRequest.toJson c.orderBy ++
    Json.memberIfSome "limit" .ofNat c.limit ++ Json.memberIfSome "offset" .ofNat c.offset ++
    Json.memberIfSome "distinct" .bool c.distinct ++ [("options", .obj c.options)])

end CollectionRequest

end ObjectGraph
