import ObjectGraph.Binding
import ObjectGraph.Error

/-!
# Endpoints

An endpoint answers the text of a query, or fails.  A scripted one goes through
rules and answers by the first whose text occurs in the query; without one, it
answers that there is nothing.
-/

namespace ObjectGraph

open Json (Value Object)

/-- How an endpoint answers the three kinds of queries; the object holds the
options of the collection. -/
structure Endpoint where
  select : String → Object → Except ClientError (List Row)
  construct : String → Object → Except ClientError (List Quad)
  update : String → Object → Except ClientError Value

/-- A rule of a scripted endpoint. -/
structure ScriptRule where
  /-- The text that occurs in the queries it answers. -/
  occurs : String
  failure : Option ClientError
  bindings : Value
  quads : Value
  response : Value

namespace Endpoint

/-- Whether a text occurs within another. -/
def occursIn (part : List Char) : List Char → Bool
  | [] => part.isEmpty
  | c :: rest => part.isPrefixOf (c :: rest) || occursIn part rest

/-- The rule that answers where no other does. -/
def silentRule : ScriptRule :=
  { occurs := "", failure := none, bindings := .arr [], quads := .arr []
    response := .obj [("updated", .bool true)] }

/-- The rule that answers a query. -/
def ruleFor (rules : List ScriptRule) (query : String) : ScriptRule :=
  (rules.find? fun r => occursIn r.occurs.toList query.toList).getD silentRule

/-- What a rule answers: its failure, or what is read from a value. -/
def answer {α : Type} (rule : ScriptRule) (what : String) (read : Option α) :
    Except ClientError α :=
  match rule.failure with
  | some failure => .error failure
  | none =>
    match read with
    | some a => .ok a
    | none => .error (.invalidResponse what)

/-- The endpoint that follows rules. -/
def scripted (rules : List ScriptRule) : Endpoint where
  select query _ :=
    let rule := ruleFor rules query
    answer rule "bindings" (Binding.readRows? rule.bindings)
  construct query _ :=
    let rule := ruleFor rules query
    answer rule "quads" (rule.quads.readList? Quad.ofJson?)
  update query _ :=
    let rule := ruleFor rules query
    answer rule "response" (some rule.response)

end Endpoint

end ObjectGraph
