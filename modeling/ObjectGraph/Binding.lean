import ObjectGraph.Json.Record

/-!
# Solutions

The solutions of a SELECT as an endpoint sends them: rows that bind variables to
IRIs, blank nodes and literals.
-/

namespace ObjectGraph

open Json (Value)

/-- A bound value. -/
structure Binding where
  /-- `uri`, `bnode`, `literal` or `typed-literal`. -/
  kind : String
  value : String
  datatype : Option String
  language : Option String
  deriving DecidableEq

/-- A solution: bound values by the names of their variables. -/
abbrev Row := Assoc Binding

namespace Binding

def uri (iri : String) : Binding := ⟨"uri", iri, none, none⟩

def literal (text : String) : Binding := ⟨"literal", text, none, none⟩

def typed (text datatype : String) : Binding := ⟨"literal", text, some datatype, none⟩

def isIri (b : Binding) : Bool := b.kind == "uri"

def isBlank (b : Binding) : Bool := b.kind == "bnode"

def ofJson? (v : Value) : Option Binding := do
  match ← Json.fields? ["type", "value", "datatype", "xml:lang"] v with
  | [kind, value, datatype, language] => do
    some ⟨← Json.required Value.readText? kind, ← Json.required Value.readText? value,
      ← Json.optional Value.readText? datatype, ← Json.optional Value.readText? language⟩
  | _ => none

def toJson (b : Binding) : Value :=
  .obj ([("type", .str b.kind), ("value", .str b.value)] ++
    Json.memberIfSome "datatype" .str b.datatype ++
    Json.memberIfSome "xml:lang" .str b.language)

/-- Reads a list of solutions. -/
def readRows? (v : Value) : Option (List Row) :=
  v.readList? (Value.readAssoc? ofJson?)

end Binding

end ObjectGraph
