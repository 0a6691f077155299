import ObjectGraph.Config
import ObjectGraph.Constraint.Condition
import ObjectGraph.Constraint.Request

/-!
# Constraints

Collection constraints as the compilers take them: every schema is there, every
condition is read, and only keys that an entity knows are left.  `build` makes
them from a request.  Unknown keys are dropped, or refused in strict mode unless
another entity of the collection knows them; computed keys are always kept.
-/

namespace ObjectGraph

open Json (Value Object)

/-- The constraint on one entity of a collection. -/
structure Entity where
  /-- The place in the collection; the root is at 0. -/
  index : Nat
  schema : Schema
  conditions : Assoc Condition := []
  /-- The keys to select; without a list, every key of the schema. -/
  selection : Option (List String) := none
  data : Object := []
  resolveType : Bool := false
  orderBy : List OrderKey := []
  limit : Option Nat := none
  offset : Option Nat := none
  distinct : Bool := false
  service : Option String := none

namespace Entity

def condition? (e : Entity) (key : String) : Option Condition :=
  e.conditions.get? key

/-- Whether an entity has an order or a cut of its own. -/
def isShaped (e : Entity) : Bool :=
  e.limit.isSome || e.offset.isSome || !e.orderBy.isEmpty

def knows (e : Entity) (key : String) : Bool :=
  e.schema.knows key

/-- The predicate of a key. -/
def mapping? (e : Entity) (ns : Namespaces) (key : String) : Option Mapping :=
  e.schema.mapping? ns key

/-- The keys whose conditions share a variable, each with the variable's name. -/
def sharedConditions (e : Entity) : List (String × String) :=
  e.conditions.filterMap fun c => c.2.sharedName?.map fun name => (c.1, name)

/-- The value that a data key has as a text. -/
def dataText? (e : Entity) (key : String) : Option String :=
  (e.data.get? key).bind Value.asText?

/-- Reads the conditions of a request. -/
def readConditions (index : Nat) (conditions : Object) :
    Except MapperError (Assoc Condition) :=
  conditions.mapM fun (key, v) =>
    match Condition.parse v with
    | .ok c => .ok (key, c)
    | .error reason => .error (.malformed index key reason)

/-- The entity of a request, with every key that is given. -/
def ofRequest (catalog : SchemaCatalog) (config : Config) (index : Nat)
    (request : EntityRequest) : Except MapperError Entity := do
  let schema ←
    match request.schema with
    | .inline schema => .ok schema
    | .byId id =>
      match catalog.get? id with
      | some schema => .ok schema
      | none => .error (.schemaUnresolved id)
  let conditions ← readConditions index request.conditions
  .ok {
    index := index
    schema := schema
    conditions := conditions
    selection := request.selection.map SelectionRequest.toKeys
    data := request.data
    resolveType := request.resolveType.getD config.defaultResolveType
    orderBy := OrderRequest.keysOf request.orderBy
    limit := request.limit
    offset := request.offset
    distinct := request.distinct.getD false
    service := request.service }

/-- The keys of conditions, then of data, that an entity does not know. -/
def unknownKeys (e : Entity) : List String :=
  Assoc.keys (e.conditions.filter fun c => !c.2.isComputed && !e.knows c.1) ++
    e.data.keys.filter (!e.knows ·)

/-- An entity without a key; the last data key takes the place of a dropped one. -/
def dropKey (e : Entity) (key : String) : Entity :=
  { e with conditions := e.conditions.erase key, data := e.data.swapErase key }

/-- An entity without the keys it does not know.  In strict mode, `knownAnywhere`
decides whether such a key is refused. -/
def prune (config : Config) (knownAnywhere : String → Bool) (e : Entity) :
    Except MapperError Entity :=
  e.unknownKeys.foldlM
    (fun e key =>
      if config.strictProperties && !knownAnywhere key then
        .error (.unknownProperty e.index key)
      else .ok (e.dropKey key))
    e

end Entity

/-- The constraint on a collection; its first entity is the root. -/
structure Collection where
  id : Option String := none
  entities : List Entity
  orderBy : List OrderKey := []
  limit : Option Nat := none
  offset : Option Nat := none
  distinct : Bool := false
  /-- Handed to the endpoint as it is. -/
  options : Object := []

namespace Collection

/-- The collection of one entity. -/
def single (e : Entity) : Collection := { entities := [e] }

def root? (c : Collection) : Option Entity :=
  c.entities.head?

/-- The name of a collection in messages: its identity, or that of the root's
schema. -/
def label (c : Collection) : String :=
  match c.id, c.root? with
  | some id, _ => id
  | none, some root => root.schema.id
  | none, none => ""

/-- The entities of requests, with every key that is given. -/
def entitiesOf (catalog : SchemaCatalog) (config : Config) (requests : List EntityRequest) :
    Except MapperError (List Entity) :=
  (requests.zipIdx).mapM fun (request, index) => Entity.ofRequest catalog config index request

/-- The collection of a request. -/
def build (catalog : SchemaCatalog) (config : Config) (request : CollectionRequest) :
    Except MapperError Collection := do
  let entities ← entitiesOf catalog config request.entities
  let knownAnywhere := fun key => entities.any (·.knows key)
  let entities ← entities.mapM (Entity.prune config knownAnywhere)
  .ok {
    id := request.id
    entities := entities
    orderBy := OrderRequest.keysOf request.orderBy
    limit := request.limit
    offset := request.offset
    distinct := request.distinct.getD false
    options := request.options }

/-- The collection of a value. -/
def ofJson (catalog : SchemaCatalog) (config : Config) (v : Value) :
    Except MapperError Collection :=
  match CollectionRequest.ofJson? v with
  | none => .error .wrongShape
  | some request => build catalog config request

end Collection

end ObjectGraph
