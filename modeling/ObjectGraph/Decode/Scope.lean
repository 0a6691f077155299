import ObjectGraph.Compile.Entity
import ObjectGraph.Context.Parse

/-!
# The contexts of a collection

Each entity has a context made of the namespace map, the terms of its schema and
its computed keys.  An entity that hangs under an earlier one through a shared
variable reads its context over that of its parent, without those inherited
terms that would rename what the entity itself names, and becomes the scope of
the parent's term that refers to it.
-/

namespace ObjectGraph.Decode

open Json (Value Object)

/-- Whether a definition types its values as strings, which plain values are. -/
def isStringTyped (entry : Object) : Bool :=
  match (entry.get? "@type").bind Value.asText? with
  | some type => type == "xsd:string" || type == Vocabulary.xsdString
  | none => false

/-- The definition of a schema's key: references are typed as identities, arrays
contained in sets, and strings not typed. -/
def termEntry (kind : Kind) (entry : Object) : Object :=
  let entry := if isStringTyped entry then entry.swapErase "@type" else entry
  let entry :=
    if kind.isReference && !entry.contains "@type" then entry.insert "@type" (.str "@id")
    else entry
  if kind.isArray then entry.insert "@container" (.str "@set") else entry

/-- Enters a member of a schema's context; of the keywords, only vocabulary and
base. -/
def enterTerm (schema : Schema) (context : Object) (member : String × Value) : Object :=
  let (key, v) := member
  if Iri.isKeyword key then
    if key = "@vocab" ∨ key = "@base" then context.insert key v else context
  else
    match v with
    | .str id => context.insert key (.obj (termEntry (schema.kindOf key) [("@id", .str id)]))
    | .obj entry => context.insert key (.obj (termEntry (schema.kindOf key) entry))
    | other => context.insert key other

/-- The context of an entity: prefixes, then the terms of the schema, then the
computed keys as truth values. -/
def entityContext (ns : Namespaces) (config : Config) (p : Part) : Object :=
  let prefixes : Object := ns.entries.map fun e => (e.1, .str e.2)
  let terms := p.entity.schema.context.foldl (enterTerm p.entity.schema) prefixes
  p.fragment.bindVars.keys.foldl
    (fun context key =>
      context.insert key
        (.obj [("@id", .str (config.localIri key)), ("@type", .str "xsd:boolean")]))
    terms

/-- An entity with the context its nodes are written under. -/
structure Scoped where
  part : Part
  context : Context

/-- The place of an entity in a collection under an earlier one, and the earlier
one's term that refers to it. -/
structure ParentLink where
  parent : Nat
  term : Option String

/-- The link of an entity whose identity is a selected key of an earlier one. -/
def forwardLink? (earlier : List Scoped) (name : String) : Option ParentLink :=
  earlier.zipIdx.findSome? fun (s, i) =>
    ((s.part.fragment.props.key? name).filter (· ≠ "@id")).map fun key => ⟨i, some key⟩

/-- The link of an entity with a key whose value is the subject of an earlier one;
the earlier one may have a reverse term for the predicate. -/
def backwardLink? (earlier : List Scoped) (name predicate : String) : Option ParentLink :=
  earlier.zipIdx.findSome? fun (s, i) =>
    if s.part.fragment.subjectVar?.map (·.name) = some name then
      some ⟨i, (s.context.reverseTermFor? predicate).map (·.1)⟩
    else none

/-- The link by which an entity hangs under an earlier one: through its identity
first, then through its keys in order. -/
def parentLink? (ns : Namespaces) (earlier : List Scoped) (e : Entity) : Option ParentLink :=
  let forward :=
    match e.condition? "@id" with
    | some (.shared name) => forwardLink? earlier name
    | _ => none
  forward <|>
    e.sharedConditions.findSome? fun (key, name) =>
      if key = "@id" then none
      else
        match (e.mapping? ns key).filter (!·.reverse) with
        | some m => backwardLink? earlier name m.iri
        | none => none

/-- A context with null for each inherited term that stands for an IRI the context
itself names. -/
def shadowInherited (parent : Context) (own : Object) : Except ContextError Object := do
  let standalone ← Context.parse .empty (.obj own)
  let named := standalone.terms.flatMap (·.2.iris)
  .ok (parent.terms.foldl
    (fun own (term, d) =>
      if !standalone.contains term && d.iris.any (named.contains ·) then own.insert term .null
      else own)
    own)

/-- Adds an entity behind the earlier ones, with its link if it has a term. -/
def addScoped (ns : Namespaces) (config : Config)
    (state : List Scoped × List (Nat × Nat × String)) (p : Part) :
    Except ContextError (List Scoped × List (Nat × Nat × String)) := do
  let (earlier, links) := state
  let own := entityContext ns config p
  match parentLink? ns earlier p.entity with
  | none =>
    let context ← Context.parse .empty (.obj own)
    .ok (earlier ++ [⟨p, context⟩], links)
  | some link =>
    let parent := ((earlier[link.parent]?).map (·.context)).getD .empty
    let own ← shadowInherited parent own
    let context ← Context.parse parent (.obj own)
    let links :=
      match link.term with
      | some term => links ++ [(link.parent, earlier.length, term)]
      | none => links
    .ok (earlier ++ [⟨p, context⟩], links)

/-- Makes the context of an entity the scope of its parent's term. -/
def nestScope (entities : List Scoped) (link : Nat × Nat × String) : List Scoped :=
  let (parent, child, term) := link
  match entities[child]? with
  | none => entities
  | some c =>
    entities.modify parent fun s => { s with context := s.context.setScope term c.context }

/-- The entities of a collection with their contexts, the last links nested
first. -/
def scopeAll (ns : Namespaces) (config : Config) (parts : List Part) :
    Except ContextError (List Scoped) := do
  let (entities, links) ← parts.foldlM (addScoped ns config) ([], [])
  .ok (links.reverse.foldl nestScope entities)

/-- The context of a whole collection: that of its root. -/
def collectionContext (ns : Namespaces) (config : Config) (parts : List Part) :
    Except ContextError Value := do
  match ← scopeAll ns config parts with
  | [] => .ok .null
  | root :: _ => .ok root.context.toJson

end ObjectGraph.Decode
