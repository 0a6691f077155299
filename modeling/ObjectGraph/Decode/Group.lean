import ObjectGraph.Compile.Entity
import ObjectGraph.Node

/-!
# The nodes of each entity

Which nodes of a graph stand for which entity.  A fixed subject takes its node,
and an entity with an exact type the nodes of its class or, without a class,
those with one of its properties.  Entities that resolve their types then share
out the typed nodes that are left, each node going to one of them: first those
that a shared variable ties to another entity, which take the nodes that carry
the link, then the others in the order of the collection.
-/

namespace ObjectGraph.Decode

open Sparql (Term)

/-- What a node must carry to stand for an entity. -/
inductive Link where
  /-- A value of the property. -/
  | subject (predicate : String)
  /-- A reference from some node through the property. -/
  | object (predicate : String)

namespace Link

/-- Whether a node carries a link. -/
def isCarriedBy (nodes : NodeMap) (n : Node) : Link → Bool
  | .subject predicate => !(n.values predicate).isEmpty
  | .object predicate => nodes.any fun other => other.refersTo predicate n.id

/-- The link of an entity that has the key itself. -/
def ofOwnKey (m : Mapping) : Link :=
  if m.reverse then .object m.iri else .subject m.iri

/-- The link of an entity that another one's key refers to. -/
def ofOtherKey (m : Mapping) : Link :=
  if m.reverse then .subject m.iri else .object m.iri

end Link

/-- The other entities of a collection. -/
def others (parts : List Part) (j : Nat) : List Part :=
  parts.eraseIdx j

/-- The links of an entity through its own shared conditions. -/
def ownLinks (ns : Namespaces) (parts : List Part) (j : Nat) (p : Part) : List Link :=
  p.entity.sharedConditions.flatMap fun (key, name) =>
    if key ≠ "@id" then ((p.entity.mapping? ns key).map Link.ofOwnKey).toList
    else
      (others parts j).filterMap fun other =>
        match other.fragment.props.key? name <|> other.fragment.hidden.key? name with
        | none => none
        | some otherKey => (other.entity.mapping? ns otherKey).map Link.ofOtherKey

/-- The links of an entity through conditions of others on its subject. -/
def otherLinks (ns : Namespaces) (parts : List Part) (j : Nat) (p : Part) : List Link :=
  match p.fragment.subjectVar? with
  | none => []
  | some subject =>
    (others parts j).flatMap fun other =>
      other.entity.sharedConditions.filterMap fun (key, name) =>
        if key ≠ "@id" ∧ name = subject.name then
          (other.entity.mapping? ns key).map Link.ofOtherKey
        else none

/-- All that a node must carry to stand for the entity at a place. -/
def linksOf (ns : Namespaces) (parts : List Part) (j : Nat) (p : Part) : List Link :=
  ownLinks ns parts j p ++ otherLinks ns parts j p

/-- Whether an entity takes its nodes from what others leave. -/
def isResolving (p : Part) : Bool :=
  p.entity.resolveType && p.fragment.subject.asIri?.isNone

/-- The predicates of an entity's keys that are not reverse. -/
def forwardPredicates (ns : Namespaces) (e : Entity) : List String :=
  e.schema.properties.keys.filterMap fun key =>
    ((e.mapping? ns key).filter (!·.reverse)).map (·.iri)

/-- The nodes of an entity that does not depend on what others take. -/
def directGroup (ns : Namespaces) (nodes : NodeMap) (p : Part) : List Node :=
  if isResolving p then []
  else
    match p.fragment.subject.asIri?, p.entity.class? ns with
    | some id, _ => (nodes.get? id).toList
    | none, some class_ => nodes.filter (·.hasType class_)
    | none, none =>
      let predicates := forwardPredicates ns p.entity
      nodes.filter fun n => predicates.any fun predicate => !(n.values predicate).isEmpty

/-- Gives an entity the typed nodes that nobody took and that carry its links. -/
def claim (nodes : NodeMap) (state : List String × List (List Node))
    (entry : Nat × List Link) : List String × List (List Node) :=
  let (taken, groups) := state
  let (j, links) := entry
  let members := nodes.filter fun n =>
    !n.types.isEmpty && !taken.contains n.id && links.all (·.isCarriedBy nodes n)
  (taken ++ members.map (·.id), groups.set j members)

/-- The entities that resolve their types with their links, those that have links
first. -/
def resolvingOrder (ns : Namespaces) (parts : List Part) : List (Nat × List Link) :=
  let resolving := parts.zipIdx.filterMap fun (p, j) =>
    if isResolving p then some (j, linksOf ns parts j p) else none
  resolving.filter (!·.2.isEmpty) ++ resolving.filter (·.2.isEmpty)

/-- The nodes of each entity. -/
def groupNodes (ns : Namespaces) (nodes : NodeMap) (parts : List Part) : List (List Node) :=
  let direct := parts.map (directGroup ns nodes)
  let taken := direct.flatMap fun group => group.map (·.id)
  ((resolvingOrder ns parts).foldl (claim nodes) (taken, direct)).2

end ObjectGraph.Decode
