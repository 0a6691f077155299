import ObjectGraph.Context.Basic
import ObjectGraph.Quad
import ObjectGraph.Text.Quoted

/-!
# Errors

What can go wrong between a constraint and its answer, and the message of each
case.
-/

namespace ObjectGraph

/-- Why a condition cannot be part of a query. -/
inductive Malformation where
  | nullCondition
  | unknownRelation (name : String)
  | missingValue (relation : String)
  | notTwoValues
  | unknownBindRelation (name : Option String)
  | badBindTriples
  | notAnIri

def Malformation.message : Malformation → String
  | .nullCondition => "null condition"
  | .unknownRelation name => "unknown relation '" ++ name ++ "'"
  | .missingValue relation => "relation '" ++ relation ++ "' needs a value"
  | .notTwoValues => "relation 'between' needs exactly two values"
  | .unknownBindRelation none => "unknown bind relation None"
  | .unknownBindRelation (some name) =>
    "unknown bind relation Some(" ++ Text.inspect name ++ ")"
  | .badBindTriples => "bad bind triples"
  | .notAnIri => "expected an IRI"

/-- How an endpoint fails to answer. -/
inductive ClientError where
  | transport (reason : String)
  | status (code : Nat) (reason : String)
  | invalidResponse (reason : String)

def ClientError.message : ClientError → String
  | .transport reason => "Transport error: " ++ reason
  | .status code reason => "Endpoint returned status " ++ toString code ++ ": " ++ reason
  | .invalidResponse reason => "Invalid response: " ++ reason

/-- Why a constraint has no answer. -/
inductive MapperError where
  /-- A constraint refers to a schema that is not known. -/
  | schemaUnresolved (id : String)
  /-- A condition cannot be part of a query. -/
  | malformed (entity : Nat) (key : String) (reason : Malformation)
  /-- A graph is empty although its root was fixed. -/
  | emptyConstruct (collection : String)
  /-- No schema of the collection knows a key. -/
  | unknownProperty (entity : Nat) (key : String)
  /-- Data to insert has no identity. -/
  | missingSubject (entity : Nat)
  | client (error : ClientError)
  | context (error : ContextError)
  | quad (error : QuadError)
  /-- A constraint does not have the form of one. -/
  | wrongShape

def MapperError.message : MapperError → String
  | .schemaUnresolved id => "Schema not found: " ++ id
  | .malformed entity key reason =>
    "Malformed condition '" ++ key ++ "' in entity " ++ toString entity ++ ": " ++
      reason.message
  | .emptyConstruct collection =>
    "CONSTRUCT returned no triples for collection '" ++ collection ++ "'"
  | .unknownProperty entity key =>
    "Unknown property '" ++ key ++ "' in entity " ++ toString entity
  | .missingSubject entity => "Entity " ++ toString entity ++ " has no '@id' in data"
  | .client error => "Client error: " ++ error.message
  | .context error => "JSON-LD error: " ++ error.message
  | .quad error => "JSON-LD error: " ++ error.message
  | .wrongShape => "Invalid constraint JSON"

end ObjectGraph
