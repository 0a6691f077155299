import ObjectGraph.Compile.Filter
import ObjectGraph.Compile.Fragment
import ObjectGraph.Compile.Hierarchy

/-!
# Compiling an entity

The fragment of an entity.  What narrows comes first and what widens last: the
triple of a key is mandatory if every instance has the key or a condition
restricts it, and stands in a group of its own that may be missing otherwise.
Array keys are left out of the main query, which they would multiply.

A draft is built key by key: first the selected keys, then the keys that only
have a condition.
-/

namespace ObjectGraph

open Json (Value)
open Sparql (Var Term Triple Predicate Expression Pattern)

/-- How array keys are treated. -/
structure CompileOptions where
  /-- Whether array keys are left to queries of their own. -/
  deferArrays : Bool := true

namespace Entity

/-- The keys an entity selects: those listed, or the identity and every key of
the schema but the type. -/
def selectedKeys (e : Entity) : List String :=
  match e.selection with
  | some keys => keys
  | none => "@id" :: e.schema.properties.keys.filter (!Schema.isKeyword ·)

/-- Shares the variables that a condition names. -/
def shareNames (a : Allocator) : Condition → Allocator
  | .shared name => (a.share name).2
  | .computed _ triples =>
    (triples.flatMap fun t => [t.subject, t.predicate, t.object]).foldl
      (fun a position =>
        match Sparql.sharedName? position with
        | some name => (a.share name).2
        | none => a)
      a
  | _ => a

/-- Shares the variables that the conditions of entities name. -/
def shareAll (entities : List Entity) (a : Allocator) : Allocator :=
  entities.foldl (fun a e => e.conditions.foldl (fun a c => shareNames a c.2) a) a

/-- The subject of an entity: the IRI or the shared variable that a condition on
the identity gives, the identity of the data, or a variable of its own. -/
def subjectTerm (ns : Namespaces) (e : Entity) (a : Allocator) :
    Except MapperError (Term × Allocator) :=
  let unpinned :=
    match e.dataText? "@id" with
    | some iri => (.iri (ns.expand iri), a)
    | none =>
      let (v, a) := a.join ("eIri" ++ toString e.index)
      (.var v, a)
  match e.condition? "@id" with
  | some (.shared name) =>
    let (v, a) := a.share name
    .ok (.var v, a)
  | some (.value v) =>
    match referenceIri? v with
    | some iri => .ok (.iri (ns.expand iri), a)
    | none => .error (.malformed e.index "@id" .notAnIri)
  | _ => .ok unpinned

/-- The class an entity is restricted to: that of a condition on the type, or the
class of the schema. -/
def class? (ns : Namespaces) (e : Entity) : Option String :=
  match e.condition? "@type" with
  | some (.value v) => (referenceIri? v).map ns.expand
  | _ => e.schema.classIri? ns

end Entity

/-- The triple of a property between an entity and a term. -/
def Mapping.triple (m : Mapping) (subject object : Term) : Triple :=
  if m.reverse then ⟨object, .iri m.iri, subject⟩ else ⟨subject, .iri m.iri, object⟩

/-- The fragment of an entity as far as it is built, and the names in use. -/
structure Draft where
  alloc : Allocator
  fragment : Fragment

namespace Draft

/-- The variable of a key: the one that its condition shares, or one of its own. -/
def varFor (e : Entity) (key : String) (condition : Option Condition) (a : Allocator) :
    Var × Allocator :=
  match condition with
  | some (.shared name) => a.share name
  | _ => a.join (key ++ toString e.index)

/-- The test that a property of a subject has some value, or none. -/
def existence (e : Entity) (subject : Term) (m : Mapping) (key : String)
    (relation : Relation) (a : Allocator) : Expression × Allocator :=
  let (witness, a) := a.fresh (key ++ "Exist" ++ toString e.index)
  let group := [Pattern.triples [m.triple subject (.var witness)]]
  (if relation = .exist then .exist group else .notExist group, a)

/-- The filter that a condition puts on the variable of its key. -/
def conditionFilter (ns : Namespaces) (e : Entity) (subject : Term) (m : Mapping)
    (key : String) (x : Var) (condition : Condition) (a : Allocator) :
    Option Expression × Allocator :=
  let kind := (e.schema.kindOf key).element
  match condition with
  | .value v => (Filter.equality x ns kind v, a)
  | .related relation values =>
    if relation.isExistence then
      let (test, a) := existence e subject m key relation a
      (some test, a)
    else (Filter.related x ns kind relation values, a)
  | .shared _ | .computed _ _ => (none, a)

/-- The draft with its subject only. -/
def start (ns : Namespaces) (e : Entity) (subject : Term) (a : Allocator) : Draft :=
  { alloc := a
    fragment := { index := e.index, subject := subject, service := e.service.map ns.expand } }

/-- Adds the filter that a relation on the identity puts on a variable subject. -/
def addIdentity (ns : Namespaces) (e : Entity) (d : Draft) : Draft :=
  match e.condition? "@id", d.fragment.subject with
  | some (.related relation values), .var x =>
    { d with
      fragment.filters :=
        d.fragment.filters ++ (Filter.related x ns .iri relation values).toList }
  | _, _ => d

/-- Adds the patterns for the type of an entity. -/
def addType (ns : Namespaces) (e : Entity) (d : Draft) : Draft :=
  let f := d.fragment
  if e.resolveType then
    let (type, a) := MostSpecificType.compile f.subject (e.class? ns) e.index d.alloc
    { alloc := a
      fragment :=
        { f with
          mandatory := f.mandatory ++ [type.triple]
          filters := f.filters ++ type.filters
          props := f.props.insert "@type" type.typeVar
          typeVar := some type.typeVar } }
  else
    match e.class? ns with
    | some class_ =>
      { d with fragment.mandatory := f.mandatory ++ [exactType f.subject class_] }
    | none => d

/-- Adds a selected key that is stored under a predicate. -/
def addProperty (ns : Namespaces) (e : Entity) (key : String) (m : Mapping) (d : Draft) :
    Draft :=
  let f := d.fragment
  let condition := e.condition? key
  let (x, a) := varFor e key condition d.alloc
  let triple := m.triple f.subject (.var x)
  let isMandatory := e.schema.isRequired key || condition.any Condition.narrows
  let (filter, a) :=
    match condition with
    | some c => conditionFilter ns e f.subject m key x c a
    | none => (none, a)
  { alloc := a
    fragment :=
      { f with
        mandatory := if isMandatory then f.mandatory ++ [triple] else f.mandatory
        optional := if isMandatory then f.optional else f.optional ++ [triple]
        filters := f.filters ++ filter.toList
        props := f.props.insert key x } }

/-- Adds a selected key.  Outside the schema only a shared variable can have its
name; computed keys come with the conditions. -/
def addSelected (ns : Namespaces) (options : CompileOptions) (e : Entity) (d : Draft)
    (key : String) : Draft :=
  let f := d.fragment
  if key = "@id" then
    match f.subject with
    | .var x => { d with fragment.props := f.props.insert "@id" x }
    | _ => d
  else if key = "@type" then d
  else if (e.condition? key).any Condition.isComputed then d
  else
    match e.schema.property? key with
    | none =>
      if d.alloc.isShared key then
        let (x, a) := d.alloc.share key
        { alloc := a, fragment := { f with props := f.props.insert key x } }
      else d
    | some p =>
      if p.kind.isArray && options.deferArrays then
        { d with fragment.arrays := f.arrays ++ [key] }
      else
        match e.mapping? ns key with
        | none => d
        | some m => addProperty ns e key m d

/-- A position of a triple of a computed key as a term. -/
def bindTerm (ns : Namespaces) (position : String) (a : Allocator) : Term × Allocator :=
  match Sparql.sharedName? position with
  | some name =>
    let (v, a) := a.share name
    (.var v, a)
  | none => (.iri (ns.expand position), a)

/-- The predicate of a triple of a computed key. -/
def bindPredicate (ns : Namespaces) (position : String) (a : Allocator) :
    Predicate × Allocator :=
  match Sparql.sharedName? position with
  | some name =>
    let (v, a) := a.share name
    (.var v, a)
  | none => (.iri (ns.expand position), a)

/-- The triples of a computed key. -/
def bindTriples (ns : Namespaces) (triples : List BindTriple) (a : Allocator) :
    List Triple × Allocator :=
  match triples with
  | [] => ([], a)
  | t :: rest =>
    let (predicate, a) := bindPredicate ns t.predicate a
    let (subject, a) := bindTerm ns t.subject a
    let (object, a) := bindTerm ns t.object a
    let (ts, a) := bindTriples ns rest a
    (⟨subject, predicate, object⟩ :: ts, a)

/-- Adds a computed key. -/
def addComputed (ns : Namespaces) (config : Config) (e : Entity) (key : String)
    (relation : BindRelation) (triples : List BindTriple) (d : Draft) : Draft :=
  let f := d.fragment
  let (x, a) := d.alloc.join (key ++ toString e.index)
  let (ts, a) := bindTriples ns triples a
  let group := [Pattern.triples ts]
  let test : Expression :=
    match relation with
    | .exist => .exist group
    | .notExist => .notExist group
  { alloc := a
    fragment :=
      { f with
        binds := f.binds ++ [(test, x)]
        bindTemplate := f.bindTemplate ++ [⟨f.subject, .iri (config.localIri key), .var x⟩]
        bindVars := f.bindVars.insert key x } }

/-- Adds a condition on a key that is stored under a predicate and not selected. -/
def addHidden (ns : Namespaces) (e : Entity) (key : String) (m : Mapping)
    (condition : Condition) (d : Draft) : Draft :=
  let f := d.fragment
  let (x, a) := varFor e key (some condition) d.alloc
  let (filter, a) := conditionFilter ns e f.subject m key x condition a
  { alloc := a
    fragment :=
      { f with
        mandatory := f.mandatory ++ [m.triple f.subject (.var x)]
        filters := f.filters ++ filter.toList
        hidden := f.hidden.insert key x } }

/-- Adds a test for existence on a key that is not selected. -/
def addExistence (e : Entity) (key : String) (m : Mapping) (relation : Relation) (d : Draft) :
    Draft :=
  let f := d.fragment
  let (test, a) := existence e f.subject m key relation d.alloc
  { alloc := a, fragment := { f with filters := f.filters ++ [test] } }

/-- Adds a condition on a key that is neither identity nor type nor selected. -/
def addCondition (ns : Namespaces) (config : Config) (e : Entity) (d : Draft)
    (entry : String × Condition) : Draft :=
  let (key, condition) := entry
  if Schema.isKeyword key || d.fragment.props.contains key then d
  else
    match condition with
    | .computed relation triples => addComputed ns config e key relation triples d
    | condition =>
      match e.mapping? ns key with
      | none => d
      | some m =>
        match condition with
        | .related relation values =>
          if relation.isExistence then addExistence e key m relation d
          else addHidden ns e key m (.related relation values) d
        | condition => addHidden ns e key m condition d

end Draft

namespace Entity

/-- The fragment of an entity. -/
def compile (ns : Namespaces) (config : Config) (options : CompileOptions) (e : Entity)
    (a : Allocator) : Except MapperError (Fragment × Allocator) := do
  let (subject, a) ← e.subjectTerm ns a
  let draft := ((Draft.start ns e subject a).addIdentity ns e).addType ns e
  let draft := e.selectedKeys.foldl (Draft.addSelected ns options e) draft
  let draft := e.conditions.foldl (Draft.addCondition ns config e) draft
  .ok ({ draft.fragment with selected := e.selectedKeys }, draft.alloc)

/-- The fragments of entities over one allocator. -/
def compileEach (ns : Namespaces) (config : Config) (options : CompileOptions) :
    List Entity → Allocator → Except MapperError (List Part)
  | [], _ => .ok []
  | e :: rest, a => do
    let (f, a) ← e.compile ns config options a
    let parts ← compileEach ns config options rest a
    .ok (⟨e, f⟩ :: parts)

end Entity

/-- The fragments of a collection, after the shared variables got their names. -/
def Collection.compileParts (ns : Namespaces) (config : Config) (options : CompileOptions)
    (c : Collection) : Except MapperError (List Part) :=
  Entity.compileEach ns config options c.entities (Entity.shareAll c.entities .empty)

end ObjectGraph
