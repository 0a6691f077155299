import ObjectGraph.Context.Basic

/-!
# Reading contexts

A context is read over another one.  Null drops everything, an array is read
item by item, and an object first sets vocabulary and base, then defines or
removes its terms, and last reads the contexts that terms carry, which see every
term of the object.

The IRI of a term is found by following the definitions of the object: a compact
IRI whose prefix the object defines goes on to that definition, a bare name that
the object defines goes on to its definition, and everything else ends the
search.  A search that comes back to a value it has seen goes in a circle, and
the term has no IRI.
-/

namespace ObjectGraph

open Json (Value Object)

namespace Context

/-- What an object says that a term stands for, as it is written there. -/
def localTarget? (members : Object) (term : String) : Option String :=
  match Assoc.get? members term with
  | some (.str s) => some s
  | some (.obj entry) => (Assoc.get? entry "@id").bind Value.asText?
  | _ => none

/-- The IRI of a bare name that the object does not define. -/
def inheritedIri (base : Context) (vocab : Option String) (name : String) : String :=
  match base.iriOf? name with
  | some iri => iri
  | none => vocab.getD "" ++ name

/-- Follows a value to its IRI.  Without a circle the search sees the value
itself and then definitions of the object only, so the fuel, two more than the
object's members, lasts. -/
def follow (members : Object) (base : Context) (vocab : Option String) :
    Nat → List String → String → Except ContextError String
  | 0, _, value => .error (.invalidMapping value)
  | fuel + 1, seen, value =>
    if Iri.isKeyword value then .ok value
    else if value ∈ seen then .error (.invalidMapping value)
    else
      match Iri.compactParts? value with
      | some (name, rest) =>
        match localTarget? members name with
        | some target => do
          let stem ← follow members base vocab fuel (value :: seen) target
          .ok (stem ++ rest)
        | none =>
          match base.iriOf? name with
          | some stem => .ok (stem ++ rest)
          | none => .ok value
      | none =>
        if Iri.isAbsolute value then .ok value
        else
          match localTarget? members value with
          | some target =>
            if target = value then .ok (inheritedIri base vocab value)
            else follow members base vocab fuel (value :: seen) target
          | none => .ok (inheritedIri base vocab value)

/-- The IRI of a value in an object that is read over a context. -/
def resolve (members : Object) (base : Context) (vocab : Option String) (value : String) :
    Except ContextError String :=
  follow members base vocab (members.length + 2) [] value

/-- The container that a definition names, the first one known of several. -/
def containerOf? : Option Value → Option Container
  | some (.str name) => Container.ofName? name
  | some (.arr items) => (items.filterMap Value.asText?).findSome? Container.ofName?
  | _ => none

/-- The coercion that a definition names. -/
def coercionOf (resolve : String → Except ContextError String) :
    Option Value → Except ContextError (Option Coercion)
  | some (.str "@id") => .ok (some .id)
  | some (.str "@vocab") => .ok (some .vocab)
  | some (.str "@json") => .ok (some .json)
  | some (.str name) => do .ok (some (.datatype (← resolve name)))
  | _ => .ok none

/-- The IRI under which a definition reads a property backwards. -/
def reverseOf (resolve : String → Except ContextError String) :
    Option Value → Except ContextError (Option String)
  | some (.str name) => do .ok (some (← resolve name))
  | _ => .ok none

/-- The IRI that a definition gives its term.  Without one, a term that is not
reverse stands for itself if it is an IRI or leads to one. -/
def iriOf (resolve : String → Except ContextError String) (term : String)
    (reverse : Option String) : Option Value → Except ContextError (Option String)
  | some (.str name) => do .ok (some (← resolve name))
  | some _ => .error (.invalidMapping term)
  | none =>
    match reverse with
    | some _ => .ok none
    | none => do
      let implied ← resolve term
      .ok (if implied ≠ term ∨ Iri.isAbsolute term then some implied else none)

/-- Reads the definition of a term, without a context of its own. -/
def define (resolve : String → Except ContextError String) (term : String) :
    Value → Except ContextError Definition
  | .str name => do .ok (.ofIri (← resolve name))
  | .obj entry => do
    let reverse ← reverseOf resolve (Assoc.get? entry "@reverse")
    let iri ← iriOf resolve term reverse (Assoc.get? entry "@id")
    let coercion ← coercionOf resolve (Assoc.get? entry "@type")
    .ok ⟨iri, coercion, reverse, containerOf? (Assoc.get? entry "@container"), none⟩
  | _ => .error (.invalidMapping term)

/-- Sets vocabulary and base from a member. -/
def setKeyword (ctx : Context) (member : String × Value) : Except ContextError Context :=
  match member with
  | ("@vocab", .str s) => .ok { ctx with vocab := some s }
  | ("@vocab", .null) => .ok { ctx with vocab := none }
  | ("@vocab", found) => .error (.vocabNotText found)
  | ("@base", v) => .ok { ctx with base := v.asText? }
  | _ => .ok ctx

/-- Defines a term from a member, or removes it where the member is null. -/
def setTerm (resolve : String → Except ContextError String) (ctx : Context)
    (member : String × Value) : Except ContextError Context :=
  if Iri.isKeyword member.1 then .ok ctx
  else
    match member.2 with
    | .null => .ok (ctx.erase member.1)
    | v => do .ok (ctx.insert member.1 (← define resolve member.1 v))

/-- Reads an object over a context, without the contexts that terms carry. -/
def parseTerms (base : Context) (members : Object) : Except ContextError Context := do
  let ctx ← members.foldlM setKeyword base
  members.foldlM (setTerm (resolve members base ctx.vocab)) ctx

mutual

/-- Reads a context over another one. -/
def parse (base : Context) : Value → Except ContextError Context
  | .null => .ok empty
  | .obj members =>
    match parseWrapped base members with
    | some result => result
    | none => do
      let ctx ← parseTerms base members
      parseScopes ctx members
  | .arr items => parseAll base items
  | found => .error (.notAContext found)

/-- Reads the member that wraps a context, if there is one. -/
def parseWrapped (base : Context) :
    List (String × Value) → Option (Except ContextError Context)
  | [] => none
  | (k, v) :: rest => if k = "@context" then some (parse base v) else parseWrapped base rest

/-- Reads contexts one over the other. -/
def parseAll (base : Context) : List Value → Except ContextError Context
  | [] => .ok base
  | v :: rest => do
    let ctx ← parse base v
    parseAll ctx rest

/-- Reads the contexts that the terms of an object carry, each over what is
defined so far. -/
def parseScopes (ctx : Context) : List (String × Value) → Except ContextError Context
  | [] => .ok ctx
  | (term, .obj entry) :: rest =>
    match parseWrapped ctx entry with
    | some result => do
      let scope ← result
      parseScopes (ctx.setScope term scope) rest
    | none => parseScopes ctx rest
  | _ :: rest => parseScopes ctx rest

end

end Context

end ObjectGraph
