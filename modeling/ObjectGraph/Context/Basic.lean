import ObjectGraph.Iri
import ObjectGraph.Json.Inspect

/-!
# Contexts

A context gives names to IRIs: terms with their definitions, in the order in
which they were defined, a vocabulary for bare names and a base.  A definition
maps its term to an IRI or, for a reverse property, to the IRI of the property
read backwards; it may say how values are typed and contained, and may carry a
context of its own for what is nested under the term.
-/

namespace ObjectGraph

open Json (Value Object)

/-- How a term's values are contained. -/
inductive Container where
  | list | set | language | index
  deriving DecidableEq

namespace Container

def name : Container → String
  | .list => "@list"
  | .set => "@set"
  | .language => "@language"
  | .index => "@index"

/-- The container with a name. -/
def ofName? : String → Option Container
  | "@list" => some .list
  | "@set" => some .set
  | "@language" => some .language
  | "@index" => some .index
  | _ => none

end Container

/-- How a term's values are typed: as identities, as words of the vocabulary, as
JSON, or as literals of a datatype. -/
inductive Coercion where
  | id | vocab | json
  | datatype (iri : String)
  deriving DecidableEq

/-- The name of a coercion. -/
def Coercion.name : Coercion → String
  | .id => "@id"
  | .vocab => "@vocab"
  | .json => "@json"
  | .datatype i => i

mutual

/-- The definition of a term. -/
structure Definition where
  iri : Option String
  coercion : Option Coercion
  reverse : Option String
  container : Option Container
  scope : Option Context

/-- A context. -/
structure Context where
  vocab : Option String
  base : Option String
  terms : List (String × Definition)

end

/-- Why a context is not accepted. -/
inductive ContextError where
  /-- It is neither null nor an object nor an array. -/
  | notAContext (found : Value)
  /-- The vocabulary is neither null nor a text. -/
  | vocabNotText (found : Value)
  /-- A term has no IRI: its definition has another shape, or goes in a circle. -/
  | invalidMapping (term : String)

def ContextError.message : ContextError → String
  | .notAContext found => "Invalid context: Invalid context type: " ++ found.inspect
  | .vocabNotText found =>
    "Invalid context: @vocab must be a string, got: " ++ found.inspect
  | .invalidMapping term => "Invalid IRI mapping for term '" ++ term ++ "'"

namespace Definition

/-- A definition that says nothing. -/
def empty : Definition := ⟨none, none, none, none, none⟩

/-- The definition that maps a term to an IRI. -/
def ofIri (iri : String) : Definition := { empty with iri := some iri }

def isReverse (d : Definition) : Bool :=
  d.reverse.isSome

/-- The IRIs that a definition maps its term to. -/
def iris (d : Definition) : List String :=
  d.iri.toList ++ d.reverse.toList

end Definition

namespace Context

/-- The context without names. -/
def empty : Context := ⟨none, none, []⟩

/-- The definition of a term. -/
def get? (ctx : Context) (term : String) : Option Definition :=
  Assoc.get? ctx.terms term

def contains (ctx : Context) (term : String) : Bool :=
  Assoc.contains ctx.terms term

/-- Defines a term: in its place if it is there, else as the last one. -/
def insert (ctx : Context) (term : String) (d : Definition) : Context :=
  { ctx with terms := Assoc.insert ctx.terms term d }

def erase (ctx : Context) (term : String) : Context :=
  { ctx with terms := Assoc.erase ctx.terms term }

/-- Gives a defined term a context of its own. -/
def setScope (ctx : Context) (term : String) (scope : Context) : Context :=
  { ctx with terms := Assoc.modify ctx.terms term fun d => { d with scope := some scope } }

/-- The IRI of a term that has one. -/
def iriOf? (ctx : Context) (term : String) : Option String :=
  (ctx.get? term).bind (·.iri)

/-- The first term, not reverse, that is mapped to an IRI. -/
def termFor? (ctx : Context) (iri : String) : Option (String × Definition) :=
  ctx.terms.find? fun e => !e.2.isReverse && e.2.iri == some iri

/-- The first term that stands for a property read backwards. -/
def reverseTermFor? (ctx : Context) (iri : String) : Option (String × Definition) :=
  ctx.terms.find? fun e => e.2.reverse == some iri

end Context

mutual

/-- The value that defines a term: the IRI alone if there is nothing else. -/
def Definition.toJson : Definition → Value
  | ⟨iri, none, none, none, none⟩ =>
    match iri with
    | some i => .str i
    | none => .null
  | ⟨iri, coercion, reverse, container, scope⟩ =>
    .obj (iri.toList.map (fun i => ("@id", .str i)) ++
      reverse.toList.map (fun i => ("@reverse", .str i)) ++
      coercion.toList.map (fun c => ("@type", .str c.name)) ++
      container.toList.map (fun c => ("@container", .str c.name)) ++
      scopeMember scope)

/-- The member that gives a term a context of its own. -/
def scopeMember : Option Context → List (String × Value)
  | none => []
  | some ctx => [("@context", ctx.toJson)]

/-- The value of a context, null for the empty one. -/
def Context.toJson : Context → Value
  | ⟨none, none, []⟩ => .null
  | ⟨vocab, base, terms⟩ =>
    .obj (termMembers terms
      (Assoc.ofList (vocab.toList.map (fun v => ("@vocab", .str v)) ++
        base.toList.map (fun b => ("@base", .str b)))))

/-- Enters the members that define the terms behind others. -/
def termMembers : List (String × Definition) → Object → Object
  | [], members => members
  | (term, d) :: rest, members => termMembers rest (Assoc.insert members term d.toJson)

end

end ObjectGraph
