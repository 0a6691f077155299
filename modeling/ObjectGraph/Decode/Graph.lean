import ObjectGraph.Decode.Coerce
import ObjectGraph.Decode.Group
import ObjectGraph.Decode.Order
import ObjectGraph.Decode.Scope
import ObjectGraph.Decode.Tabular

/-!
# Objects from graphs

The quads of a CONSTRUCT become nodes, each entity takes its nodes and writes
them under its context as objects of its selected keys.  Objects are then nested
along the variables that entities share, the last entity first: a reference to a
child's identity is replaced by the child, and children that refer to a parent
are gathered under the parent's reverse term.  What is left are the objects of
the root, in the order of the collection.
-/

namespace ObjectGraph.Decode

open Json (Value Object)

/-- A node with the object it became. -/
structure Decoded where
  node : Node
  object : Object

/-- The nodes that refer to a node through a property, as one value. -/
def referrers? (context : Context) (nodes : NodeMap) (n : Node) (predicate : String) :
    Option Value :=
  match nodes.filter (·.refersTo predicate n.id) with
  | [] => none
  | found => some (.ofItems (found.map fun other => .str (context.compactId other.id)))

/-- The value of a selected key in a node that is written as an object. -/
def selectedValue? (ns : Namespaces) (nodes : NodeMap) (s : Scoped) (n : Node)
    (written : Object) (key : String) : Option Value :=
  match s.part.entity.mapping? ns key with
  | some m => if m.reverse then referrers? s.context nodes n m.iri else written.get? key
  | none => written.get? key

/-- Enters a value of a kind, if there is one. -/
def enterValue (object : Object) (key : String) (kind : Kind) : Option Value → Object
  | none => object
  | some v => object.insert key (coerce v kind)

/-- The selected view of a node. -/
def shape (ns : Namespaces) (nodes : NodeMap) (s : Scoped) (n : Node) : Object :=
  let written := n.compact s.context
  let id : Object := ((written.get? "@id").map fun v => ("@id", v)).toList
  let type : Object :=
    if typeRequested s.part then ((written.get? "@type").map fun v => ("@type", v)).toList
    else []
  let keys := s.part.fragment.selected.filter (!Schema.isKeyword ·)
  let object := keys.foldl
    (fun object key =>
      enterValue object key (s.part.entity.schema.kindOf key)
        (selectedValue? ns nodes s n written key))
    (id ++ type)
  s.part.fragment.bindVars.keys.foldl
    (fun object key => enterValue object key .boolean (written.get? key)) object

/-- The child that an identity refers to. -/
def findChild? (context : Context) (children : List Decoded) (id : String) : Option Value :=
  (children.find? (·.node.id == context.expand false id)).map fun c => .obj c.object

/-- A reference replaced by the child it refers to. -/
def replaceRef (context : Context) (children : List Decoded) (v : Value) : Value :=
  match v with
  | .str id => (findChild? context children id).getD v
  | v => v

/-- Replaces the references of a key by children, also within an array. -/
def linkForward (context : Context) (children : List Decoded) (key : String)
    (parent : Decoded) : Decoded :=
  match parent.object.get? key with
  | none => parent
  | some (.arr items) =>
    { parent with
      object := parent.object.insert key (.arr (items.map (replaceRef context children))) }
  | some v =>
    { parent with object := parent.object.insert key (replaceRef context children v) }

/-- The children that refer to a node through a property, without the key they
refer with. -/
def childrenOf (children : List Decoded) (key predicate id : String) : List Value :=
  (children.filter (·.node.refersTo predicate id)).map fun c =>
    .obj (c.object.swapErase key)

/-- Gathers children under the parent's reverse term, or else under the child's
key in a member for reverse properties. -/
def linkBackward (context : Context) (children : List Decoded) (key predicate : String)
    (parent : Decoded) : Decoded :=
  match childrenOf children key predicate parent.node.id with
  | [] => parent
  | mine =>
    match context.reverseTermFor? predicate with
    | some (term, _) => { parent with object := parent.object.insert term (.arr mine) }
    | none =>
      match (parent.object.get? "@reverse").getD (.obj []) with
      | .obj members =>
        { parent with
          object := parent.object.insert "@reverse" (.obj (Assoc.insert members key (.arr mine))) }
      | _ => parent

/-- The key of a parent that holds the identity of a child with this name. -/
def forwardKey? (child : Entity) (parent : Fragment) : Option String :=
  match child.condition? "@id" with
  | some (.shared name) => (parent.props.key? name).filter (· ≠ "@id")
  | _ => none

/-- The keys of a child whose values are the subject of a parent, with their
predicates. -/
def backwardKeys (ns : Namespaces) (child : Entity) (parent : Fragment) :
    List (String × String) :=
  child.sharedConditions.filterMap fun (key, name) =>
    if key = "@id" ∨ parent.subjectVar?.map (·.name) ≠ some name then none
    else ((child.mapping? ns key).filter (!·.reverse)).map fun m => (key, m.iri)

/-- Links the children of one entity into an object of another. -/
def linkInto (ns : Namespaces) (child : Entity) (children : List Decoded) (s : Scoped)
    (parent : Decoded) : Decoded :=
  let parent :=
    match forwardKey? child s.part.fragment with
    | some key => linkForward s.context children key parent
    | none => parent
  (backwardKeys ns child s.part.fragment).foldl
    (fun parent (key, predicate) => linkBackward s.context children key predicate parent)
    parent

/-- Links the objects of the entity at a place into those of all others. -/
def linkEntity (ns : Namespaces) (entities : List Scoped) (decoded : List (List Decoded))
    (j : Nat) : List (List Decoded) :=
  match entities[j]?, decoded[j]? with
  | some child, some children =>
    (entities.zip decoded).zipIdx.map fun ((s, parents), i) =>
      if i = j then parents
      else parents.map (linkInto ns child.part.entity children s)
  | _, _ => decoded

/-- Links all entities but the root, the last one first. -/
def linkAll (ns : Namespaces) (entities : List Scoped) (decoded : List (List Decoded)) :
    List (List Decoded) :=
  ((List.range decoded.length).drop 1).reverse.foldl (linkEntity ns entities) decoded

/-- The nodes of every entity with their selected views, entity by entity. -/
def decodeAll (ns : Namespaces) (nodes : NodeMap) (entities : List Scoped)
    (groups : List (List Node)) : List (List Decoded) :=
  (entities.zip groups).map fun (s, members) =>
    members.map fun n => { node := n, object := shape ns nodes s n }

/-- The objects of the root with the identities of their nodes. -/
def graphNodes (ns : Namespaces) (config : Config) (c : Collection) (parts : List Part)
    (quads : List Quad) : Except MapperError (List (String × Object)) := do
  let nodes ← (NodeMap.ofQuads quads).mapError .quad
  let entities ← (scopeAll ns config parts).mapError .context
  let decoded := decodeAll ns nodes entities (groupNodes ns nodes parts)
  let roots := ((linkAll ns entities decoded).head?.getD []).map fun d => (d.node.id, d.object)
  match parts with
  | [] => .ok roots
  | root :: _ => .ok (sortObjects (c.orderBy ++ root.entity.orderBy) root.fragment roots)

/-- The objects of the root. -/
def graph (ns : Namespaces) (config : Config) (c : Collection) (parts : List Part)
    (quads : List Quad) : Except MapperError (List Object) := do
  let roots ← graphNodes ns config c parts quads
  .ok (roots.map (·.2))

end ObjectGraph.Decode
