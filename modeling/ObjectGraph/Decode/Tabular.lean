import ObjectGraph.Binding
import ObjectGraph.Compile.Entity
import ObjectGraph.Decode.Lexical

/-!
# Objects from solutions

Each solution is one object.  Every entity reads the variables of its own keys,
and fills in what its conditions fix; the objects of the entities are then merged
into that of the root.  A key that is there with another value gets the number
of its entity behind it, and types are collected.
-/

namespace ObjectGraph.Decode

open Json (Value Object)

/-- Whether objects of an entity carry a type: it is resolved, asked for, or among
the keys of a schema that is selected as a whole. -/
def typeRequested (p : Part) : Bool :=
  p.entity.resolveType || p.fragment.selected.contains "@type" ||
    (p.entity.selection.isNone && p.entity.schema.hasProperty "@type")

/-- A literal by the kind of its property. -/
def literalOfKind (ns : Namespaces) (text : String) : Kind → Value
  | .integer => Lexical.integer text
  | .number => Lexical.number text
  | .boolean => Lexical.boolean text
  | .iri | .object => .str (ns.abbreviate text)
  | _ => .str text

/-- A literal by its datatype. -/
def literalOfDatatype (text : String) : Option String → Value
  | none => .str text
  | some dt =>
    if Vocabulary.isIntegerDatatype dt then Lexical.integer text
    else if Vocabulary.isDecimalDatatype dt then Lexical.number text
    else if dt = Vocabulary.xsdBoolean then Lexical.boolean text
    else .str text

/-- A bound value: IRIs in compact form, blank nodes by their labels, literals by
the kind of the property or, where that is not known, by their datatype. -/
def binding (ns : Namespaces) (kind : Option Kind) (b : Binding) : Value :=
  if b.isIri then .str (ns.abbreviate b.value)
  else if b.isBlank then .str ("_:" ++ b.value)
  else
    match kind with
    | some kind => literalOfKind ns b.value kind.element
    | none => literalOfDatatype b.value b.datatype

/-- The kind of a key that an entity knows. -/
def knownKind? (e : Entity) (key : String) : Option Kind :=
  if e.knows key then some (e.schema.kindOf key) else none

/-- Enters the values that a row binds for some keys. -/
def enterBound (ns : Namespaces) (row : Row) (kind : String → Option Kind) (vars : KeyVars)
    (object : Object) : Object :=
  vars.entries.foldl
    (fun object (key, v) =>
      match row.get? v.name with
      | some b => object.insert key (binding ns (kind key) b)
      | none => object)
    object

/-- The value that a condition fixes, as it appears in an object. -/
def pinnedValue (ns : Namespaces) (e : Entity) (key : String) (v : Value) : Value :=
  match referenceIri? v with
  | some iri =>
    if (e.schema.kindOf key).isReference then .str (ns.abbreviate (ns.expand iri)) else v
  | none => v

/-- Enters the selected keys that conditions fix and the row does not bind. -/
def enterPinned (ns : Namespaces) (p : Part) (object : Object) : Object :=
  p.entity.conditions.foldl
    (fun object (key, condition) =>
      match condition with
      | .value v =>
        if object.contains key || !p.fragment.selected.contains key then object
        else object.insert key (pinnedValue ns p.entity key v)
      | _ => object)
    object

/-- Enters the class as the type, where the type is asked for and not there. -/
def enterClass (ns : Namespaces) (p : Part) (object : Object) : Object :=
  if p.entity.resolveType || object.contains "@type" || !typeRequested p then object
  else
    match p.entity.class? ns with
    | some class_ => object.insert "@type" (.str (ns.abbreviate class_))
    | none => object

/-- The object of one entity in a row. -/
def entityObject (ns : Namespaces) (row : Row) (p : Part) : Object :=
  let object := enterBound ns row (knownKind? p.entity) p.fragment.props []
  let object := enterBound ns row (fun _ => some .boolean) p.fragment.bindVars object
  enterClass ns p (enterPinned ns p object)

/-- Adds types to those of an object, each once. -/
def mergeType (root : Object) (v : Value) : Object :=
  let incoming := v.itemsOrSelf
  match root.get? "@type" with
  | none => root.insert "@type" (.ofItems incoming)
  | some existing =>
    root.insert "@type" (.ofItems (incoming.foldl Value.addNew existing.itemsOrSelf))

/-- Adds a key of the entity with a number to an object. -/
def mergeKey (index : Nat) (root : Object) (entry : String × Value) : Object :=
  let (key, v) := entry
  if key = "@type" then mergeType root v
  else
    match root.get? key with
    | none => root.insert key v
    | some existing =>
      if existing.same v then root else root.insert (key ++ toString index) v

/-- Merges the objects of entities, from the given number on, into that of the
root. -/
def mergeFrom (root : Object) (index : Nat) : List Object → Object
  | [] => root
  | object :: rest => mergeFrom (object.foldl (mergeKey index) root) (index + 1) rest

/-- The objects of all entities of a row as one. -/
def merge : List Object → Object
  | [] => []
  | root :: rest => mergeFrom root 1 rest

/-- The object of a row. -/
def rowObject (ns : Namespaces) (parts : List Part) (row : Row) : Object :=
  merge (parts.map (entityObject ns row))

/-- The objects of a list of solutions, one for each. -/
def solutions (ns : Namespaces) (parts : List Part) (rows : List Row) : List Object :=
  rows.map (rowObject ns parts)

end ObjectGraph.Decode
