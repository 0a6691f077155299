import ObjectGraph.Compile.Select

/-!
# CONSTRUCT queries

A CONSTRUCT yields triples, so a cut at the outside would fall between the
triples of one resource.  An entity with an order or a cut is therefore moved
into a sub-select over its variables, and the outer query has neither.  What the
collection asks for applies to its root.
-/

namespace ObjectGraph

open Sparql (Modifiers Pattern)

/-- A CONSTRUCT query with the fragments by which its graph is read. -/
structure ConstructPlan where
  query : Sparql.Construct
  parts : List Part

namespace Collection

/-- Order and cut of an entity within its sub-select, if it needs one. -/
def entityModifiers? (c : Collection) (p : Part) : Option Modifiers :=
  let e := p.entity
  let isRoot := e.index == 0
  let keys := if isRoot then c.orderBy ++ e.orderBy else e.orderBy
  let limit := if isRoot then c.limit <|> e.limit else e.limit
  let offset := if isRoot then c.offset <|> e.offset else e.offset
  if keys.isEmpty && limit.isNone && offset.isNone then none
  else some ⟨orderConditions [p.fragment] keys, limit, offset⟩

/-- The sub-select of an entity, if it needs one and no service answers it. -/
def subselect? (c : Collection) (p : Part) : Option Pattern :=
  if p.fragment.service.isSome then none
  else
    (c.entityModifiers? p).map fun modifiers =>
      let distinct := p.entity.distinct || (p.entity.index == 0 && c.distinct)
      .subselect (.of distinct p.fragment.boundVars p.fragment.patterns modifiers)

/-- The CONSTRUCT of a collection. -/
def compileConstruct (ns : Namespaces) (config : Config) (c : Collection) :
    Except MapperError ConstructPlan := do
  let parts ← c.compileParts ns config {}
  let flat := parts.filter fun p => (c.subselect? p).isNone
  .ok {
    query :=
      { template := parts.flatMap (·.fragment.template)
        body := parts.filterMap c.subselect? ++ mergePatterns (flat.map (·.fragment))
        modifiers := .none }
    parts := parts }

end Collection

/-- The text of a CONSTRUCT plan. -/
def ConstructPlan.text (plan : ConstructPlan) (ns : Namespaces) (config : Config) : String :=
  Sparql.documentOf (config.iriStyle ns) plan.query.document

end ObjectGraph
