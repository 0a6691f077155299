import ObjectGraph.Compile.Select

/-!
# Follow-up queries

The values of an array key of one resource, asked for by a SELECT of their own:
the subject is fixed, and the schema is that of the resource with the one key
left.  The answers are collected into an array without repetition.
-/

namespace ObjectGraph

open Json (Value Object)

/-- A follow-up query with the constraint by which its solutions are read. -/
structure FollowUp where
  constraint : Collection
  plan : SelectPlan

namespace FollowUp

/-- The schema with identity and one key of another one. -/
def schema (parent : Schema) (key : String) : Schema :=
  let id := (parent.property? "@id").getD { type := some "string", format := some "iri" }
  let own : Assoc PropertySchema := [("@id", id)]
  { id := parent.id ++ "#" ++ key
    context := parent.context
    properties :=
      match parent.property? key with
      | some p => own.insert key p
      | none => own
    required := [key] }

/-- The constraint on the values of a key of a resource. -/
def collectionFor (parent : Entity) (key id : String) : Collection :=
  .single
    { index := 0
      schema := schema parent.schema key
      conditions := [("@id", .value (.str id))]
      selection := some [key]
      service := parent.service }

/-- The follow-up query for a key of a resource. -/
def compile (ns : Namespaces) (config : Config) (parent : Entity) (key id : String) :
    Except MapperError FollowUp := do
  let c := collectionFor parent key id
  let plan ← c.compileSelectWith ns config { deferArrays := false }
  .ok ⟨c, plan⟩

/-- The values of a key in a list of objects, each once, in the order in which
they come. -/
def collect (rows : List Object) (key : String) : Value :=
  .arr ((rows.filterMap (·.get? key)).foldl Value.addNew [])

end FollowUp

end ObjectGraph
