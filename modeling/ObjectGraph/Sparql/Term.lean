import ObjectGraph.Vocabulary

/-!
# Terms

Variables, literals and terms of a query.  IRIs are full IRIs throughout;
whether they are written in a compact form is decided when the query is written.
-/

namespace ObjectGraph.Sparql

/-- A variable, by its name without the question mark. -/
structure Var where
  name : String
  deriving DecidableEq

/-- The variable a text names: one question mark or dollar sign in front of the
name is not part of it. -/
def Var.ofText (s : String) : Var :=
  match s.toList with
  | '?' :: rest => ⟨String.ofList rest⟩
  | '$' :: rest => ⟨String.ofList rest⟩
  | _ => ⟨s⟩

/-- A variable as it stands in a query. -/
def Var.text (v : Var) : String :=
  "?" ++ v.name

/-- The name behind a question mark, of a text that starts with one. -/
def sharedName? (s : String) : Option String :=
  match s.toList with
  | '?' :: rest => some (String.ofList rest)
  | _ => none

/-- A literal. -/
inductive Literal where
  | plain (text : String)
  | tagged (text language : String)
  | typed (text datatype : String)
  | boolean (b : Bool)
  deriving DecidableEq

/-- The literal of an integer. -/
def Literal.integer (i : Int) : Literal :=
  .typed (toString i) Vocabulary.xsdInteger

/-- A term in a triple pattern. -/
inductive Term where
  | var (v : Var)
  | iri (iri : String)
  | literal (l : Literal)
  | blank (label : String)
  deriving DecidableEq

/-- The variable that a term is. -/
def Term.asVar? : Term → Option Var
  | .var v => some v
  | _ => none

/-- The IRI that a term is. -/
def Term.asIri? : Term → Option String
  | .iri i => some i
  | _ => none

/-- A property path. -/
inductive Path where
  | iri (iri : String)
  | inverse (path : Path)
  | zeroOrMore (path : Path)
  deriving DecidableEq, Inhabited

/-- Whether a path is a single IRI. -/
def Path.isSimple : Path → Bool
  | .iri _ => true
  | _ => false

/-- What stands in the predicate position of a triple pattern. -/
inductive Predicate where
  | var (v : Var)
  | iri (iri : String)
  | path (path : Path)
  deriving DecidableEq

/-- A path in the predicate position; a single IRI is no path there. -/
def Path.toPredicate : Path → Predicate
  | .iri i => .iri i
  | p => .path p

/-- A triple pattern. -/
structure Triple where
  subject : Term
  predicate : Predicate
  object : Term
  deriving DecidableEq

/-- The pattern that gives a subject a type. -/
def Triple.ofType (subject type : Term) : Triple :=
  ⟨subject, .iri Vocabulary.rdfType, type⟩

/-- The variables of a triple pattern, from left to right. -/
def Triple.vars (t : Triple) : List Var :=
  let predicate :=
    match t.predicate with
    | .var v => [v]
    | _ => []
  t.subject.asVar?.toList ++ predicate ++ t.object.asVar?.toList

end ObjectGraph.Sparql
