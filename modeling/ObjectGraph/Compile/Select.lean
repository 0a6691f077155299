import ObjectGraph.Compile.Entity
import ObjectGraph.Sparql.Printer

/-!
# SELECT queries

The fragments of a collection are merged into one group: the mandatory triples
of all local entities as one block, the entities that a service answers, and
then what may be missing, the filters and the computed keys.  An order key is
looked up among the fragments; a name behind a question mark is a variable as it
stands.
-/

namespace ObjectGraph

open Sparql (Var Expression Pattern OrderCondition)

/-- A SELECT query with the fragments by which its solutions are read. -/
structure SelectPlan where
  query : Sparql.Select
  parts : List Part

namespace Collection

/-- The variable that an order key stands for. -/
def orderVar? (fragments : List Fragment) (key : String) : Option Var :=
  match Sparql.sharedName? key with
  | some name => some (Var.ofText name)
  | none => fragments.findSome? (·.var? key)

/-- The conditions of an order; keys that no fragment has are left out. -/
def orderConditions (fragments : List Fragment) (keys : List OrderKey) : List OrderCondition :=
  keys.filterMap fun k =>
    (orderVar? fragments k.key).map fun v => ⟨.var v, k.descending⟩

/-- The variables of all fragments, each once. -/
def projection (fragments : List Fragment) : List Var :=
  (fragments.flatMap Fragment.projection).eraseDups

/-- The block of a fragment that a service answers. -/
def servicePattern? (f : Fragment) : Option Pattern :=
  f.service.map fun endpoint => .service endpoint false f.patterns

/-- The patterns of all fragments as one group. -/
def mergePatterns (fragments : List Fragment) : List Pattern :=
  let inPlace := fragments.filter (·.service.isNone)
  let mandatory := inPlace.flatMap (·.mandatory)
  (if mandatory.isEmpty then [] else [.triples mandatory]) ++
    fragments.filterMap servicePattern? ++
    inPlace.flatMap Fragment.optionalPatterns ++
    inPlace.flatMap Fragment.filterPatterns ++
    inPlace.flatMap Fragment.bindPatterns

/-- The order of a SELECT: the keys of the collection, then those of each entity. -/
def selectOrder (c : Collection) (parts : List Part) : List OrderCondition :=
  orderConditions (parts.map (·.fragment)) c.orderBy ++
    parts.flatMap fun p => orderConditions [p.fragment] p.entity.orderBy

/-- The cut of a collection at a limit: its own, or that of its root. -/
def rootLimit? (c : Collection) : Option Nat :=
  c.limit <|> c.root?.bind (·.limit)

/-- The number of results to leave out: the collection's own, or that of its root. -/
def rootOffset? (c : Collection) : Option Nat :=
  c.offset <|> c.root?.bind (·.offset)

/-- The SELECT of a collection, distinct if the collection or an entity asks for
it. -/
def compileSelectWith (ns : Namespaces) (config : Config) (options : CompileOptions)
    (c : Collection) : Except MapperError SelectPlan := do
  let parts ← c.compileParts ns config options
  let fragments := parts.map (·.fragment)
  .ok {
    query :=
      .of (c.distinct || c.entities.any (·.distinct)) (projection fragments)
        (mergePatterns fragments) ⟨c.selectOrder parts, c.rootLimit?, c.rootOffset?⟩
    parts := parts }

/-- The main SELECT of a collection. -/
def compileSelect (ns : Namespaces) (config : Config) (c : Collection) :
    Except MapperError SelectPlan :=
  c.compileSelectWith ns config {}

end Collection

/-- The text of a SELECT plan. -/
def SelectPlan.text (plan : SelectPlan) (ns : Namespaces) (config : Config) : String :=
  Sparql.documentOf (config.iriStyle ns) plan.query.document

end ObjectGraph
