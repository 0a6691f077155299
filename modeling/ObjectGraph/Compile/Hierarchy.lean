import ObjectGraph.Sparql.Query
import ObjectGraph.Variable.Allocator

/-!
# Types

An entity is matched by its class alone, or through any subclass of it.  In the
latter case a variable takes the most specific of its types: a type such that no
other type of the entity is a direct subclass of it, and that leads to the class
through subclass steps.
-/

namespace ObjectGraph

open Sparql (Var Term Triple Path Expression Pattern)

/-- The pattern that a subject is of a class. -/
def exactType (subject : Term) (class_ : String) : Triple :=
  .ofType subject (.iri class_)

/-- The patterns that bind the most specific type of a subject. -/
structure MostSpecificType where
  typeVar : Var
  triple : Triple
  filters : List Expression

namespace MostSpecificType

/-- No other type of the subject is a subclass of the type. -/
def noNarrower (subject : Term) (type subtype : Var) : Expression :=
  .notExist
    [.triples
      [⟨.var subtype, (Path.inverse (.iri Vocabulary.rdfType)).toPredicate, subject⟩,
       ⟨.var subtype, .iri Vocabulary.subClassOf, .var type⟩],
     .filter (.ne (.var subtype) (.var type))]

/-- The type leads to the class through subclass steps. -/
def under (type supertype : Var) (class_ : String) : Expression :=
  .exist
    [.triples
      [⟨.var type, (Path.zeroOrMore (.iri Vocabulary.subClassOf)).toPredicate,
        .var supertype⟩],
     .filter (.eq (.var supertype) (.iri class_))]

/-- The patterns for the most specific type of an entity under a class, if there
is one. -/
def compile (subject : Term) (class_ : Option String) (index : Nat) (a : Allocator) :
    MostSpecificType × Allocator :=
  let (type, a) := a.join ("type" ++ toString index)
  let (subtype, a) := a.join ("subtype" ++ toString index)
  let triple := Triple.ofType subject (.var type)
  let narrowest := noNarrower subject type subtype
  match class_ with
  | none => (⟨type, triple, [narrowest]⟩, a)
  | some class_ =>
    let (supertype, a) := a.join ("supertype" ++ toString index)
    (⟨type, triple, [narrowest, under type supertype class_]⟩, a)

theorem compile_typeVar (subject : Term) (class_ : Option String) (index : Nat) (a : Allocator) :
    (compile subject class_ index a).1.typeVar = (a.join ("type" ++ toString index)).1 := by
  unfold compile
  cases class_ <;> rfl

end MostSpecificType

end ObjectGraph
