import ObjectGraph.Json.Record
import ObjectGraph.Vocabulary

/-!
# Quads

Quads as an endpoint sends them: each position has a kind of term, a value and,
for a literal, a datatype and a language.  Reading accepts any kind of term in
any position; grouping the quads does not.
-/

namespace ObjectGraph

open Json (Value)

/-- The kind of a term. -/
inductive TermKind where
  | namedNode | blankNode | literal | defaultGraph | variable
  deriving DecidableEq

namespace TermKind

def name : TermKind → String
  | .namedNode => "NamedNode"
  | .blankNode => "BlankNode"
  | .literal => "Literal"
  | .defaultGraph => "DefaultGraph"
  | .variable => "Variable"

def all : List TermKind := [.namedNode, .blankNode, .literal, .defaultGraph, .variable]

/-- Reads the name of a kind, alone or as the only key of an object whose value
is null. -/
def ofJson? : Value → Option TermKind
  | .str s => all.find? (·.name == s)
  | .obj [(s, .null)] => all.find? (·.name == s)
  | _ => none

end TermKind

/-- The datatype of a literal. -/
structure DatatypeRef where
  kind : TermKind
  iri : String
  deriving DecidableEq

/-- A term in a quad. -/
structure QuadTerm where
  kind : TermKind
  value : String
  datatype : Option DatatypeRef
  language : Option String
  deriving DecidableEq

/-- A quad; the graph may be absent. -/
structure Quad where
  subject : QuadTerm
  predicate : QuadTerm
  object : QuadTerm
  graph : Option QuadTerm
  deriving DecidableEq

namespace DatatypeRef

def ofJson? (v : Value) : Option DatatypeRef := do
  match ← Json.fields? ["termType", "value"] v with
  | [kind, value] => do
    some ⟨← Json.withDefault .namedNode TermKind.ofJson? kind,
      ← Json.required Value.readText? value⟩
  | _ => none

def toJson (d : DatatypeRef) : Value :=
  .obj [("termType", .str d.kind.name), ("value", .str d.iri)]

end DatatypeRef

namespace QuadTerm

def named (iri : String) : QuadTerm := ⟨.namedNode, iri, none, none⟩

def blank (label : String) : QuadTerm := ⟨.blankNode, label, none, none⟩

/-- A literal, with a datatype if one is given. -/
def literal (value : String) (datatype : Option String) : QuadTerm :=
  ⟨.literal, value, datatype.map (⟨.namedNode, ·⟩), none⟩

/-- A text in a language. -/
def tagged (value language : String) : QuadTerm :=
  ⟨.literal, value, some ⟨.namedNode, Vocabulary.rdfLangString⟩, some language⟩

def datatypeIri? (t : QuadTerm) : Option String :=
  t.datatype.map (·.iri)

/-- The language of a text; an empty one counts as none. -/
def languageTag? (t : QuadTerm) : Option String :=
  t.language.filter (· ≠ "")

def ofJson? (v : Value) : Option QuadTerm := do
  match ← Json.fields? ["termType", "value", "datatype", "language"] v with
  | [kind, value, datatype, language] => do
    some ⟨← Json.required TermKind.ofJson? kind, ← Json.required Value.readText? value,
      ← Json.optional DatatypeRef.ofJson? datatype,
      ← Json.optional Value.readText? language⟩
  | _ => none

def toJson (t : QuadTerm) : Value :=
  .obj ([("termType", .str t.kind.name), ("value", .str t.value)] ++
    Json.memberIfSome "datatype" DatatypeRef.toJson t.datatype ++
    Json.memberIfSome "language" .str t.language)

end QuadTerm

namespace Quad

def ofJson? (v : Value) : Option Quad := do
  match ← Json.fields? ["subject", "predicate", "object", "graph"] v with
  | [subject, predicate, object, graph] => do
    some ⟨← Json.required QuadTerm.ofJson? subject, ← Json.required QuadTerm.ofJson? predicate,
      ← Json.required QuadTerm.ofJson? object, ← Json.optional QuadTerm.ofJson? graph⟩
  | _ => none

def toJson (q : Quad) : Value :=
  .obj ([("subject", q.subject.toJson), ("predicate", q.predicate.toJson),
    ("object", q.object.toJson)] ++ Json.memberIfSome "graph" QuadTerm.toJson q.graph)

end Quad

/-- Why a quad cannot be part of a graph. -/
inductive QuadError where
  | subjectKind (kind : TermKind)
  | predicateNotNamed (value : String)
  | objectKind (kind : TermKind)

def QuadError.message : QuadError → String
  | .subjectKind kind => "Invalid quad: " ++ kind.name ++ " cannot appear in subject position"
  | .predicateNotNamed value => "Invalid quad: predicate must be a named node: " ++ value
  | .objectKind kind => "Invalid quad: " ++ kind.name ++ " cannot appear in object position"

end ObjectGraph
