import ObjectGraph.Compile.Construct
import ObjectGraph.Compile.FollowUp
import ObjectGraph.Compile.Update
import ObjectGraph.Decode.Graph
import ObjectGraph.Endpoint

/-!
# Mappers

A mapper answers constraints through an endpoint: it compiles, asks, and reads
the answer.  A constraint that is malformed asks nothing and has an empty answer;
every other error is the answer.  A run also yields the queries that were issued,
in order.

The main query leaves out the array keys of the root.  They are asked for one by
one, object by object, for the objects that have an IRI.
-/

namespace ObjectGraph

open Json (Value Object)

/-- The kinds of queries. -/
inductive QueryKind where
  | select | construct | update
  deriving DecidableEq

/-- A query as it was issued. -/
structure IssuedQuery where
  kind : QueryKind
  text : String
  params : Object

/-- A computation that issues queries and may fail; what it issued stays on
record. -/
abbrev Run (α : Type) := ExceptT MapperError (StateM (List IssuedQuery)) α

namespace Run

/-- Issues a query and takes its answer. -/
def issue {α : Type} (kind : QueryKind) (text : String) (params : Object)
    (answer : Except ClientError α) : Run α := do
  modify (· ++ [⟨kind, text, params⟩])
  match answer with
  | .ok a => pure a
  | .error e => throw (.client e)

/-- The result of a run and the queries that it issued. -/
def results {α : Type} (r : Run α) : Except MapperError α × List IssuedQuery :=
  StateT.run (ExceptT.run r) []

end Run

/-- What a mapper works with. -/
structure Mapper where
  endpoint : Endpoint
  catalog : SchemaCatalog
  ns : Namespaces
  config : Config

namespace Mapper

variable (m : Mapper)

/-- The collection of a request with what a compiler makes of it; nothing if the
constraint is malformed. -/
def prepare {α : Type} (compile : Collection → Except MapperError α)
    (request : CollectionRequest) : Except MapperError (Option (Collection × α)) :=
  let prepared := do
    let c ← Collection.build m.catalog m.config request
    let plan ← compile c
    .ok (c, plan)
  match prepared with
  | .ok p => .ok (some p)
  | .error (.malformed _ _ _) => .ok none
  | .error e => .error e

/-- The values of an array key of a resource. -/
def fetchArray (root : Entity) (params : Object) (id key : String) : Run Value := do
  let followUp ← liftExcept (FollowUp.compile m.ns m.config root key id)
  let text := followUp.plan.text m.ns m.config
  let rows ← Run.issue .select text params (m.endpoint.select text params)
  pure (FollowUp.collect (Decode.solutions m.ns followUp.plan.parts rows) key)
where
  /-- A result that issues nothing. -/
  liftExcept {α : Type} : Except MapperError α → Run α
    | .ok a => pure a
    | .error e => throw e

/-- Whether an identity is that of a blank node. -/
def isBlankId (id : String) : Bool :=
  match id.toList with
  | '_' :: ':' :: _ => true
  | _ => false

/-- Enters the values of the array keys of one object, which are asked for unless
it has no IRI. -/
def expandObject (root : Entity) (params : Object) (arrays : List String)
    (subject : Option String) (object : Object) : Run Object :=
  match subject with
  | none => pure object
  | some id =>
    if isBlankId id then pure object
    else
      arrays.foldlM
        (fun object key => do
          let values ← m.fetchArray root params id key
          pure (object.insert key values))
        object

/-- Enters the values of the array keys of the root into its objects. -/
def expandArrays (c : Collection) (parts : List Part)
    (objects : List (Option String × Object)) : Run (List Object) :=
  match parts with
  | [] => pure (objects.map (·.2))
  | root :: _ =>
    objects.mapM fun (subject, object) =>
      m.expandObject root.entity c.options root.fragment.arrays subject object

/-- The identity of an object that a solution became, as a full IRI. -/
def subjectOf (object : Object) : Option String :=
  ((object.get? "@id").bind Value.asText?).map m.ns.expand

/-- The objects that a SELECT finds, one for each solution. -/
def selectObjects (request : CollectionRequest) : Run (List Object) := do
  match m.prepare (Collection.compileSelect m.ns m.config) request with
  | .error e => throw e
  | .ok none => pure []
  | .ok (some (c, plan)) =>
    let text := plan.text m.ns m.config
    let rows ← Run.issue .select text c.options (m.endpoint.select text c.options)
    let objects := Decode.solutions m.ns plan.parts rows
    m.expandArrays c plan.parts (objects.map fun object => (m.subjectOf object, object))

/-- Whether a condition fixes the subject of a collection's root. -/
def isPinned (c : Collection) : Bool :=
  match c.root?.bind (·.condition? "@id") with
  | some (.value _) => true
  | _ => false

/-- The objects of the root that a CONSTRUCT finds, with nested references.  That
a fixed root is not there is an error. -/
def constructObjects (request : CollectionRequest) : Run (List Object) := do
  match m.prepare (Collection.compileConstruct m.ns m.config) request with
  | .error e => throw e
  | .ok none => pure []
  | .ok (some (c, plan)) =>
    let text := plan.text m.ns m.config
    let quads ← Run.issue .construct text c.options (m.endpoint.construct text c.options)
    if quads.isEmpty && isPinned c then throw (.emptyConstruct c.label)
    else
      match Decode.graphNodes m.ns m.config c plan.parts quads with
      | .error e => throw e
      | .ok roots =>
        m.expandArrays c plan.parts (roots.map fun (id, object) => (some id, object))

/-- The answer of the endpoint to an update, null for a malformed constraint. -/
def runUpdate (compile : Collection → Except MapperError Sparql.Update)
    (request : CollectionRequest) : Run Value := do
  match m.prepare compile request with
  | .error e => throw e
  | .ok none => pure .null
  | .ok (some (c, update)) =>
    let text := updateText m.ns m.config update
    Run.issue .update text c.options (m.endpoint.update text c.options)

/-- Inserts the data of a collection. -/
def insertObjects (request : CollectionRequest) : Run Value :=
  m.runUpdate (Collection.compileInsert m.ns) request

/-- Overwrites the data keys of a collection. -/
def updateObjects (request : CollectionRequest) : Run Value :=
  m.runUpdate (Collection.compileUpdate m.ns) request

/-- Deletes what a collection finds. -/
def deleteObjects (request : CollectionRequest) : Run Value :=
  m.runUpdate (Collection.compileDelete m.ns m.config) request

end Mapper

end ObjectGraph
