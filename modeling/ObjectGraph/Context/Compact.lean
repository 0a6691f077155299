import ObjectGraph.Context.Basic

/-!
# Long and short names under a context

`expand` turns a name into an IRI.  `compactVocab` gives an IRI the shortest name
that properties and types may have: a term, else a compact IRI, else the part
behind the vocabulary; `compactId` only uses compact IRIs, for identities.  A
compact IRI has the longest namespace in front, and its prefix is the first term
that is mapped to that namespace.
-/

namespace ObjectGraph.Context

/-- The IRI of a name.  As a word of the vocabulary a bare name may be a term or
a name in the vocabulary; as an identity only compact IRIs are expanded. -/
def expand (ctx : Context) (isVocab : Bool) (name : String) : String :=
  if Iri.isKeyword name then name
  else
    match if isVocab then ctx.iriOf? name else none with
    | some iri => iri
    | none =>
      match Iri.compactParts? name with
      | some (first, rest) =>
        match ctx.iriOf? first with
        | some stem => stem ++ rest
        | none => name
      | none =>
        if isVocab && !Iri.isAbsolute name then
          match ctx.vocab with
          | some vocab => vocab ++ name
          | none => name
        else name

/-- The IRIs of the terms that are not reverse, each with its term. -/
def exactTerms (ctx : Context) : List (String × String) :=
  ctx.terms.filterMap fun e =>
    if e.2.isReverse then none else e.2.iri.map fun iri => (iri, e.1)

/-- The term of an IRI, the first one defined. -/
def exactTerm? (ctx : Context) (iri : String) : Option String :=
  Assoc.get? ctx.exactTerms iri

/-- The ways to write an IRI behind a term that is mapped to a namespace. -/
def compactForms (ctx : Context) (iri : String) : List (String × String) :=
  ctx.exactTerms.filterMap fun e =>
    if Iri.isNamespace e.1 then
      (Iri.localPart? e.1 iri).map fun rest => (e.2, rest)
    else none

/-- The compact IRI with the longest namespace. -/
def compactForm? (ctx : Context) (iri : String) : Option String :=
  (Iri.shortest? (ctx.compactForms iri)).map fun parts => parts.1 ++ ":" ++ parts.2

/-- The part of an IRI behind the vocabulary. -/
def vocabName? (ctx : Context) (iri : String) : Option String :=
  match ctx.vocab with
  | none => none
  | some vocab =>
    match vocab.toList.isPrefixOf? iri.toList with
    | none | some [] => none
    | some rest => some (String.ofList rest)

/-- The shortest name of an IRI as a property or a type. -/
def compactVocab (ctx : Context) (iri : String) : String :=
  match if Iri.isNamespace iri then none else ctx.exactTerm? iri with
  | some term => term
  | none =>
    match ctx.compactForm? iri with
    | some name => name
    | none => (ctx.vocabName? iri).getD iri

/-- The shortest name of an IRI as an identity. -/
def compactId (ctx : Context) (iri : String) : String :=
  (ctx.compactForm? iri).getD iri

end ObjectGraph.Context
