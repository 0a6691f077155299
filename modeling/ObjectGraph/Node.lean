import ObjectGraph.Context.Compact
import ObjectGraph.Quad

/-!
# Nodes

Quads grouped by subject and then by predicate, everything once and in the order
in which it first came.  The named types of a node are kept apart from its
properties.  A node is written under a context as an object with short names:
a term's values as the term says, all others by the compact name of their
predicate.
-/

namespace ObjectGraph

open Json (Value Object)

/-- A value of a node's property. -/
inductive NodeValue where
  | iri (iri : String)
  /-- A blank node, by its label behind `_:`. -/
  | blank (id : String)
  | literal (text : String) (datatype language : Option String)
  deriving DecidableEq

/-- The identity of a blank node: its label behind `_:`. -/
def blankId (label : String) : String :=
  match label.toList with
  | '_' :: ':' :: _ => label
  | _ => "_:" ++ label

namespace NodeValue

/-- The value that the object of a quad is. -/
def ofTerm (t : QuadTerm) : Except QuadError NodeValue :=
  match t.kind with
  | .namedNode => .ok (.iri t.value)
  | .blankNode => .ok (.blank (blankId t.value))
  | .literal => .ok (.literal t.value t.datatypeIri? t.languageTag?)
  | kind => .error (.objectKind kind)

/-- The identity of the node that a value refers to. -/
def refId? : NodeValue → Option String
  | .iri id => some id
  | .blank id => some id
  | .literal _ _ _ => none

end NodeValue

/-- All that is said of one subject. -/
structure Node where
  id : String
  types : List String
  properties : Assoc (List NodeValue)

namespace Node

/-- A node of which nothing is said. -/
def empty (id : String) : Node := ⟨id, [], []⟩

/-- The values of a property. -/
def values (n : Node) (predicate : String) : List NodeValue :=
  (n.properties.get? predicate).getD []

def hasType (n : Node) (iri : String) : Bool :=
  n.types.contains iri

/-- Whether a node refers to another one through a property. -/
def refersTo (n : Node) (predicate id : String) : Bool :=
  (n.values predicate).any fun v => v.refId? == some id

/-- Adds a value of a property, once. -/
def addValue (n : Node) (predicate : String) (v : NodeValue) : Node :=
  let vs := n.values predicate
  { n with
    properties := Assoc.insert n.properties predicate (if v ∈ vs then vs else vs ++ [v]) }

/-- Adds a type, once. -/
def addType (n : Node) (type : String) : Node :=
  { n with types := if type ∈ n.types then n.types else n.types ++ [type] }

/-- Adds what a quad says: a type if that is a named node, else a value. -/
def add (n : Node) (predicate : String) (v : NodeValue) : Node :=
  match v with
  | .iri type =>
    if predicate = Vocabulary.rdfType then n.addType type else n.addValue predicate v
  | v => n.addValue predicate v

end Node

/-- Nodes by their identities, in the order in which they first came. -/
abbrev NodeMap := List Node

namespace NodeMap

/-- The node with an identity. -/
def get? (nodes : NodeMap) (id : String) : Option Node :=
  nodes.find? (·.id == id)

/-- Adds what a quad says of a subject, whose node comes last if it is new. -/
def add (subject predicate : String) (v : NodeValue) : NodeMap → NodeMap
  | [] => [(Node.empty subject).add predicate v]
  | n :: rest =>
    if n.id = subject then n.add predicate v :: rest else n :: add subject predicate v rest

/-- The identity of the node that the subject of a quad is. -/
def subjectId (t : QuadTerm) : Except QuadError String :=
  match t.kind with
  | .namedNode => .ok t.value
  | .blankNode => .ok (blankId t.value)
  | kind => .error (.subjectKind kind)

/-- Adds a quad. -/
def addQuad (nodes : NodeMap) (q : Quad) : Except QuadError NodeMap := do
  let subject ← subjectId q.subject
  if q.predicate.kind ≠ .namedNode then .error (.predicateNotNamed q.predicate.value)
  else
    let v ← NodeValue.ofTerm q.object
    .ok (nodes.add subject q.predicate.value v)

/-- Groups quads; quads of different graphs are taken together. -/
def ofQuads (quads : List Quad) : Except QuadError NodeMap :=
  quads.foldlM addQuad []

end NodeMap

namespace Node

/-- A reference under a term: as an identity, as a word of the vocabulary, or as
an object with the identity. -/
def compactRef (ctx : Context) (coercion : Option Coercion) (id : String) : Value :=
  match coercion with
  | some .id => .str (ctx.compactId id)
  | some .vocab => .str (ctx.compactVocab id)
  | _ => .obj [("@id", .str (ctx.compactId id))]

/-- A literal under a term: as a text if it is a string or has the datatype of
the term, and as an object with its language or datatype otherwise. -/
def compactLiteral (ctx : Context) (coercion : Option Coercion) (text : String)
    (datatype language : Option String) : Value :=
  match language with
  | some tag => .obj [("@value", .str text), ("@language", .str tag)]
  | none =>
    let dt := datatype.getD Vocabulary.xsdString
    if dt = Vocabulary.xsdString ∨ coercion = some (.datatype dt) then .str text
    else .obj [("@value", .str text), ("@type", .str (ctx.compactVocab dt))]

/-- A value under a term. -/
def compactValue (ctx : Context) (coercion : Option Coercion) : NodeValue → Value
  | .iri id => compactRef ctx coercion id
  | .blank id => compactRef ctx coercion id
  | .literal text datatype language => compactLiteral ctx coercion text datatype language

/-- Whether a term's values are always an array. -/
def alwaysArray (d : Definition) : Bool :=
  d.container == some .set || d.container == some .list

/-- The member for a property: under its term, or under its compact name. -/
def compactProperty (ctx : Context) (predicate : String) (vs : List NodeValue) :
    String × Value :=
  match ctx.termFor? predicate with
  | some (term, d) =>
    let values := vs.map (compactValue ctx d.coercion)
    (term, if alwaysArray d then .arr values else .ofItems values)
  | none => (ctx.compactVocab predicate, .ofItems (vs.map (compactValue ctx none)))

/-- A node as an object under a context.  A name that two properties share keeps
the values of the later one. -/
def compact (ctx : Context) (n : Node) : Object :=
  let type : Object :=
    if n.types.isEmpty then []
    else [("@type", .ofItems (n.types.map fun t => .str (ctx.compactVocab t)))]
  n.properties.foldl
    (fun object p =>
      let member := compactProperty ctx p.1 p.2
      object.insert member.1 member.2)
    (("@id", .str (ctx.compactId n.id)) :: type)

end Node

end ObjectGraph
