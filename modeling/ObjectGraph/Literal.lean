import ObjectGraph.Instant
import ObjectGraph.Json.Printer
import ObjectGraph.Schema
import ObjectGraph.Sparql.Term

/-!
# Values as terms

The term that a JSON value stands for under the kind of its property.  A value
that does not fit its kind is written by its JSON type alone: a text, a truth
value, an integer or a decimal, and anything else as its JSON text.
-/

namespace ObjectGraph

open Json (Value Number)
open Sparql (Literal Term)

/-- The IRI that a value refers to: a text, or an object with an identity. -/
def referenceIri? : Value → Option String
  | .str s => some s
  | .obj members => (Assoc.get? members "@id").bind Value.asText?
  | _ => none

namespace Encode

/-- The literal that the JSON type of a value makes. -/
def byType : Value → Literal
  | .str s => .plain s
  | .bool b => .boolean b
  | .num (.int i) => .typed (Number.int i).text Vocabulary.xsdInteger
  | .num n => .typed n.text Vocabulary.xsdDecimal
  | v => .plain v.text

/-- A date-time: a text in UTC if it is one of RFC 3339 and as it stands
otherwise, an integer as milliseconds since the start of 1970. -/
def dateTime? : Value → Option String
  | .str s =>
    match Instant.parse? s with
    | some t => some t.text
    | none => some s
  | .num (.int i) => (Instant.ofMillis? i).map Instant.text
  | _ => none

/-- A number or a text as a literal of a datatype. -/
def numeric (datatype : String) : Value → Literal
  | .num n => .typed n.text datatype
  | .str s => .typed s datatype
  | v => byType v

/-- A truth value or one of the texts `true` and `false` as a truth value. -/
def boolean : Value → Literal
  | .bool b => .boolean b
  | .str s => if s = "true" then .boolean true else if s = "false" then .boolean false
    else .plain s
  | v => byType v

/-- The term of a value; for an array, that of a value among its items. -/
def value (ns : Namespaces) : Kind → Value → Term
  | .array items, v => value ns items v
  | .iri, v | .object, v =>
    match referenceIri? v with
    | some iri => .iri (ns.expand iri)
    | none => .literal (byType v)
  | .dateTime, v =>
    match dateTime? v with
    | some t => .literal (.typed t Vocabulary.xsdDateTime)
    | none => .literal (byType v)
  | .integer, v => .literal (numeric Vocabulary.xsdInteger v)
  | .number, v => .literal (numeric Vocabulary.xsdDecimal v)
  | .boolean, v => .literal (boolean v)
  | .string, v => .literal (byType v)

/-- A value becomes an IRI or a literal. -/
theorem value_cases (ns : Namespaces) (kind : Kind) (v : Value) :
    (∃ i, value ns kind v = .iri i) ∨ ∃ l, value ns kind v = .literal l := by
  induction kind with
  | array items ih => exact ih
  | iri | object =>
      unfold value
      split
      · exact .inl ⟨_, rfl⟩
      · exact .inr ⟨_, rfl⟩
  | dateTime =>
      unfold value
      split <;> exact .inr ⟨_, rfl⟩
  | integer | number | boolean | string => exact .inr ⟨_, rfl⟩

end Encode

end ObjectGraph
