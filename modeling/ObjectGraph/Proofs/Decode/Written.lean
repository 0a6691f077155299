import ObjectGraph.Decode.Tabular
import ObjectGraph.Proofs.Number.Digits

/-!
# Values read back

A term that is written for a value comes back from an endpoint as a binding with the
same lexical form and datatype, and is read by the kind of its property.  The value
that is read is the one that was written, references in their compact form
(`readWritten_eq`).  Integers are the exception: those from `2 ^ 63` on are written
like the others, but reading stops at the signed integers of 64 bits and keeps the
rest as texts.
-/

namespace ObjectGraph

open Json (Value Number)

namespace Binding

/-- A blank node by its label. -/
def blank (label : String) : Binding :=
  ⟨"bnode", label, none, none⟩

/-- A literal with the lexical form and the datatype of a literal of a query. -/
def ofLiteral : Sparql.Literal → Binding
  | .plain text => literal text
  | .tagged text language => ⟨"literal", text, none, some language⟩
  | .typed text datatype => typed text datatype
  | .boolean b => typed (if b then "true" else "false") Vocabulary.xsdBoolean

/-- A term as an endpoint answers with it; a variable is not an answer. -/
def ofTerm? : Sparql.Term → Option Binding
  | .iri iri => some (uri iri)
  | .literal l => some (ofLiteral l)
  | .blank label => some (blank label)
  | .var _ => none

end Binding

/-- The values in the domain of a kind: integers that 64 bits hold with or without a
sign, truth values, and texts, as they stand or as references. -/
def Kind.Holds : Kind → Value → Prop
  | .array items, v => items.Holds v
  | .integer, .num (.int i) => isSigned64 i = true ∨ isUnsigned64 i = true
  | .boolean, .bool _ => True
  | .string, .str _ | .iri, .str _ | .object, .str _ => True
  | _, _ => False

/-- What a value is after it was written and read: a reference is in its compact
form. -/
def Kind.compact (ns : Namespaces) : Kind → Value → Value
  | .array items, v => items.compact ns v
  | .iri, .str s | .object, .str s => .str (ns.abbreviate (ns.expand s))
  | _, v => v

/-- Whether a value is an integer that needs more than 64 bits with its sign. -/
def Json.Value.isLong : Value → Bool
  | .num (.int i) => !isSigned64 i
  | _ => false

namespace Decode

variable {ns : Namespaces} {kind : Kind} {v : Value}

/-- The value that is read under a kind from the term that is written under it. -/
def readWritten (ns : Namespaces) (kind : Kind) (v : Value) : Option Value :=
  (Binding.ofTerm? (Encode.value ns kind v)).map (binding ns (some kind))

/-- An IRI is read in its compact form. -/
theorem binding_uri (iri : String) :
    binding ns (some kind) (.uri iri) = .str (ns.abbreviate iri) := by
  simp [binding, Binding.isIri, Binding.uri]

/-- A literal is read by its lexical form. -/
theorem binding_ofLiteral (l : Sparql.Literal) :
    binding ns (some kind) (.ofLiteral l) =
      literalOfKind ns (Binding.ofLiteral l).value kind.element := by
  have hkind : (Binding.ofLiteral l).kind = "literal" := by
    cases l <;> rfl
  simp [binding, Binding.isIri, Binding.isBlank, hkind]

/-- A value that is written as a literal is read by its lexical form. -/
theorem readWritten_of_literal (l : Sparql.Literal) (h : Encode.value ns kind v = .literal l) :
    readWritten ns kind v = some (literalOfKind ns (Binding.ofLiteral l).value kind.element) := by
  simp [readWritten, h, Binding.ofTerm?, binding_ofLiteral]

/-- A value that is written as an IRI is read in its compact form. -/
theorem readWritten_of_iri {iri : String} (h : Encode.value ns kind v = .iri iri) :
    readWritten ns kind v = some (.str (ns.abbreviate iri)) := by
  simp [readWritten, h, Binding.ofTerm?, binding_uri]

/-- The text of an integer is read as the integer if 64 bits hold it with its sign. -/
theorem integer_toString (i : Int) :
    Lexical.integer (toString i) = if isSigned64 i then .num (.int i) else .str (toString i) := by
  unfold Lexical.integer
  rw [Text.trimChars_int, readInteger?_toString]
  cases isSigned64 i <;> rfl

/-- The text of a truth value is read as the truth value. -/
theorem boolean_ofLiteral (b : Bool) :
    Lexical.boolean (Binding.ofLiteral (.boolean b)).value = .bool b := by
  cases b <;> rfl

/-- Each value in the domain of a kind is written as a term that is read as the same
value, but for the integers that the reader does not know. -/
theorem readWritten_eq (hv : kind.Holds v) :
    readWritten ns kind v = some (if v.isLong then .str v.text else kind.compact ns v) := by
  induction kind with
  | array items ih => exact ih hv
  | integer =>
      match v, hv with
      | .num (.int i), _ =>
          have hread : readWritten ns .integer (.num (.int i)) =
              some (Lexical.integer (toString i)) :=
            readWritten_of_literal (.typed (toString i) Vocabulary.xsdInteger) rfl
          have hlong : (Value.num (.int i)).isLong = !isSigned64 i := rfl
          rw [hread, integer_toString, hlong]
          cases isSigned64 i with
          | true => rfl
          | false => rfl
  | boolean =>
      match v, hv with
      | .bool b, _ =>
          have hread : readWritten ns .boolean (.bool b) =
              some (Lexical.boolean (Binding.ofLiteral (.boolean b)).value) :=
            readWritten_of_literal (.boolean b) rfl
          exact hread.trans (congrArg some (boolean_ofLiteral b))
  | string =>
      match v, hv with
      | .str s, _ =>
          have hread : readWritten ns .string (.str s) = some (.str s) :=
            readWritten_of_literal (.plain s) rfl
          exact hread
  | iri | object =>
      match v, hv with
      | .str s, _ => exact readWritten_of_iri rfl
  | dateTime | number => cases v <;> cases hv

/-- The least signed integer, as an item of an array. -/
theorem readWritten_least :
    (Kind.array .integer).Holds (.num (.int (-9223372036854775808))) ∧
      readWritten .exampleOrg (.array .integer) (.num (.int (-9223372036854775808))) =
        some (.num (.int (-9223372036854775808))) :=
  ⟨.inl (by decide), readWritten_eq (.inl (by decide))⟩

/-- The first integer that takes the 64th bit is an integer like the others when it
is written, and a text when it is read. -/
theorem readWritten_unsigned :
    Kind.integer.Holds (.num (.int 9223372036854775808)) ∧
      Encode.value .exampleOrg .integer (.num (.int 9223372036854775808)) =
        .literal (.typed "9223372036854775808" Vocabulary.xsdInteger) ∧
      readWritten .exampleOrg .integer (.num (.int 9223372036854775808)) =
        some (.str "9223372036854775808") ∧
      readWritten .exampleOrg .integer (.num (.int 9223372036854775808)) ≠
        some (.num (.int 9223372036854775808)) := by
  have hread : readWritten .exampleOrg .integer (.num (.int 9223372036854775808)) =
      some (.str "9223372036854775808") := rfl
  refine ⟨.inr (by decide), rfl, hread, ?_⟩
  rw [hread]
  exact nofun

end Decode

end ObjectGraph
