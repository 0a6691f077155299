import ObjectGraph.Compile.Entity
import ObjectGraph.Sparql.Printer

/-!
# Updates

Each entity of a collection becomes one operation.  Inserting writes all its
data.  Updating touches the keys of the data only: their old values are deleted
and the new ones inserted, so a null value only deletes.  Deleting removes every
triple whose subject the conditions find.
-/

namespace ObjectGraph

open Json (Value)
open Sparql (Var Term Triple Expression Pattern Operation)

namespace Entity

/-- The terms of a data value: one for each item of an array, none for null. -/
def dataTerms (ns : Namespaces) (e : Entity) (key : String) (v : Value) : List Term :=
  (v.itemsOrSelf.filter (!·.isNull)).map (Encode.value ns (e.schema.kindOf key))

/-- The data keys that have a predicate, with it and the data value; identity and
type are not among them. -/
def storedData (ns : Namespaces) (e : Entity) : List (String × Mapping × Value) :=
  e.data.filterMap fun d =>
    if Schema.isKeyword d.1 then none
    else (e.mapping? ns d.1).map fun m => (d.1, m, d.2)

/-- The triples that hold the values of a data key. -/
def dataTriples (ns : Namespaces) (e : Entity) (subject : Term)
    (entry : String × Mapping × Value) : List Triple :=
  (e.dataTerms ns entry.1 entry.2.2).map (entry.2.1.triple subject)

/-- The operation that inserts the data of an entity. -/
def compileInsert (ns : Namespaces) (e : Entity) : Except MapperError Operation :=
  match e.dataText? "@id" with
  | none => .error (.missingSubject e.index)
  | some iri =>
    let subject := Term.iri (ns.expand iri)
    let class_ :=
      match e.dataText? "@type" with
      | some type => some (ns.expand type)
      | none => e.schema.classIri? ns
    .ok (.insertData
      (class_.toList.map (exactType subject) ++
        (e.storedData ns).flatMap (e.dataTriples ns subject)))

/-- The conditions by which an update finds a variable subject: those on keys with
a predicate that neither share a variable nor are computed. -/
def updateConditions (ns : Namespaces) (e : Entity) : List (String × Mapping × Condition) :=
  e.conditions.filterMap fun c =>
    if Schema.isKeyword c.1 then none
    else
      match c.2 with
      | .shared _ | .computed _ _ => none
      | condition => (e.mapping? ns c.1).map fun m => (c.1, m, condition)

/-- What an update has matched so far. -/
structure Matches where
  alloc : Allocator
  /-- The variables of the keys of conditions. -/
  vars : List (String × Var) := []
  optional : List Triple := []
  filters : List Expression := []

namespace Matches

/-- Matches a key of a condition. -/
def addCondition (ns : Namespaces) (e : Entity) (subject : Term) (m : Matches)
    (entry : String × Mapping × Condition) : Matches :=
  let (key, mapping, condition) := entry
  let (x, a) := m.alloc.join (key ++ toString e.index)
  let (filter, a) := Draft.conditionFilter ns e subject mapping key x condition a
  { alloc := a
    vars := m.vars ++ [(key, x)]
    optional := m.optional ++ [mapping.triple subject (.var x)]
    filters := m.filters ++ filter.toList }

/-- The variable of the old values of a data key, which is matched unless a
condition did that. -/
def oldValue (e : Entity) (subject : Term) (m : Matches) (key : String) (mapping : Mapping) :
    Var × Matches :=
  match Assoc.get? m.vars key with
  | some x => (x, m)
  | none =>
    let (x, a) := m.alloc.join (key ++ toString e.index)
    (x, { m with alloc := a, optional := m.optional ++ [mapping.triple subject (.var x)] })

/-- The triples that hold the old values of the data keys. -/
def oldValues (e : Entity) (subject : Term) (m : Matches) :
    List (String × Mapping × Value) → List Triple × Matches
  | [] => ([], m)
  | (key, mapping, _) :: rest =>
    let (x, m) := m.oldValue e subject key mapping
    let (ts, m) := oldValues e subject m rest
    (mapping.triple subject (.var x) :: ts, m)

end Matches

/-- The operation that overwrites the data keys of an entity. -/
def compileUpdate (ns : Namespaces) (e : Entity) (a : Allocator) :
    Except MapperError (Operation × Allocator) := do
  let (subject, a) ← e.subjectTerm ns a
  let required := (e.class? ns).toList.map (exactType subject)
  let conditions := if subject.asVar?.isSome then e.updateConditions ns else []
  let found := conditions.foldl (Matches.addCondition ns e subject) { alloc := a }
  let data := e.storedData ns
  let (delete, found) := found.oldValues e subject data
  .ok (.modify delete (data.flatMap (e.dataTriples ns subject))
    (.triples required :: found.optional.map .optionalTriple ++ found.filters.map .filter),
    found.alloc)

/-- The operation that deletes what the conditions of an entity find. -/
def compileDelete (ns : Namespaces) (config : Config) (e : Entity) (a : Allocator) :
    Except MapperError (Operation × Allocator) := do
  let selector := { e with selection := some [], resolveType := false }
  let (f, a) ← selector.compile ns config {} a
  let (p, a) := a.fresh ("p" ++ toString e.index)
  let (o, a) := a.fresh ("o" ++ toString e.index)
  let any : Triple := ⟨f.subject, .var p, .var o⟩
  .ok (.modify [any] [] (.triples (any :: f.mandatory) :: f.filterPatterns), a)

/-- One operation for each entity over one allocator. -/
def operations (compile : Entity → Allocator → Except MapperError (Operation × Allocator)) :
    List Entity → Allocator → Except MapperError Sparql.Update
  | [], _ => .ok []
  | e :: rest, a => do
    let (op, a) ← compile e a
    let ops ← operations compile rest a
    .ok (op :: ops)

end Entity

namespace Collection

/-- The request that inserts the data of a collection. -/
def compileInsert (ns : Namespaces) (c : Collection) : Except MapperError Sparql.Update :=
  c.entities.mapM (Entity.compileInsert ns)

/-- The request that overwrites the data keys of a collection. -/
def compileUpdate (ns : Namespaces) (c : Collection) : Except MapperError Sparql.Update :=
  Entity.operations (Entity.compileUpdate ns) c.entities .empty

/-- The request that deletes what a collection finds. -/
def compileDelete (ns : Namespaces) (config : Config) (c : Collection) :
    Except MapperError Sparql.Update :=
  Entity.operations (Entity.compileDelete ns config) c.entities .empty

end Collection

/-- The text of an update request. -/
def updateText (ns : Namespaces) (config : Config) (update : Sparql.Update) : String :=
  Sparql.documentOf (config.iriStyle ns) (Sparql.updateDocument update)

end ObjectGraph
