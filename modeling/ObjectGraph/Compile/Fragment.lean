import ObjectGraph.Constraint.Basic
import ObjectGraph.Sparql.Query
import ObjectGraph.Variable.Bijection

/-!
# Fragments

The part of a query that one entity contributes, together with the variables
that stand for its keys, by which results are read back.
-/

namespace ObjectGraph

open Sparql (Var Term Triple Expression Pattern)

/-- The part of a query that comes from one entity. -/
structure Fragment where
  index : Nat
  subject : Term
  /-- The keys asked for, in the order of the request. -/
  selected : List String := []
  mandatory : List Triple := []
  /-- Triples that may be missing, each on its own. -/
  optional : List Triple := []
  filters : List Expression := []
  /-- Computed keys: the test and the variable of each. -/
  binds : List (Expression × Var) := []
  /-- The variables of selected keys. -/
  props : KeyVars := .empty
  /-- The variables of keys that only a condition needs. -/
  hidden : KeyVars := .empty
  /-- The variables of computed keys. -/
  bindVars : KeyVars := .empty
  /-- Array keys that are left to queries of their own. -/
  arrays : List String := []
  service : Option String := none
  /-- The variable of the most specific type. -/
  typeVar : Option Var := none
  /-- The triples that carry computed keys in a graph. -/
  bindTemplate : List Triple := []

namespace Fragment

def subjectVar? (f : Fragment) : Option Var :=
  f.subject.asVar?

/-- The variable of a key, be it selected, computed or hidden. -/
def var? (f : Fragment) (key : String) : Option Var :=
  f.props.var? key <|> f.bindVars.var? key <|> f.hidden.var? key

/-- The variables to select: those of properties, then those of computed keys. -/
def projection (f : Fragment) : List Var :=
  f.props.vars ++ f.bindVars.vars

def optionalPatterns (f : Fragment) : List Pattern :=
  f.optional.map .optionalTriple

def filterPatterns (f : Fragment) : List Pattern :=
  f.filters.map .filter

def bindPatterns (f : Fragment) : List Pattern :=
  f.binds.map fun b => .bind b.1 b.2

/-- The patterns of the entity alone, the mandatory ones first. -/
def patterns (f : Fragment) : List Pattern :=
  (if f.mandatory.isEmpty then [] else [.triples f.mandatory]) ++
    f.optionalPatterns ++ f.filterPatterns ++ f.bindPatterns

/-- The variables that the patterns bind, each once, in the order in which they
come. -/
def boundVars (f : Fragment) : List Var :=
  List.eraseDups ((f.mandatory ++ f.optional).flatMap Triple.vars ++ f.binds.map (·.2))

/-- The triples that stand for the entity in a graph. -/
def template (f : Fragment) : List Triple :=
  f.mandatory ++ f.optional ++ f.bindTemplate

end Fragment

/-- An entity of a collection with its fragment. -/
structure Part where
  entity : Entity
  fragment : Fragment

end ObjectGraph
