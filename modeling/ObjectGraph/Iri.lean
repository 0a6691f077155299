/-!
# The forms of an IRI

A text with a scheme is absolute; a text `p:rest` is compact if `p` can be a
prefix name.  The two overlap (`urn:x` is both), and `http://…` is never compact
because what follows its colon starts with `//`.
-/

namespace ObjectGraph.Iri

/-- Whether a text starts with two slashes. -/
def startsAuthority (cs : List Char) : Bool :=
  match cs with
  | '/' :: '/' :: _ => true
  | _ => false

/-- Whether a text is a keyword rather than an IRI or a name. -/
def isKeyword (s : String) : Bool :=
  s.toList.head? == some '@'

/-- What stands in front of the first colon and what behind it. -/
def atColon? (s : String) : Option (List Char × List Char) :=
  match s.toList.dropWhile (· != ':') with
  | [] => none
  | _ :: rest => some (s.toList.takeWhile (· != ':'), rest)

/-- The prefix name and the rest of a compact IRI: split at the first colon, the
name is not empty and has no slash, and the rest does not start with `//`. -/
def compactParts? (s : String) : Option (String × String) :=
  match atColon? s with
  | none => none
  | some (name, rest) =>
    if name.isEmpty || name.contains '/' || startsAuthority rest then none
    else some (String.ofList name, String.ofList rest)

/-- A character of a scheme behind its first letter. -/
def isSchemeChar (c : Char) : Bool :=
  c.isAlphanum || c == '+' || c == '-' || c == '.'

/-- Whether a text starts with a scheme: a letter, then letters, digits, `+`,
`-` and `.` up to a colon. -/
def isAbsolute (s : String) : Bool :=
  match atColon? s with
  | some (c :: scheme, _) => c.isAlpha && scheme.all isSchemeChar
  | _ => false

/-- Whether a text ends as the IRI of a namespace does, with `/` or `#`. -/
def isNamespace (s : String) : Bool :=
  match s.toList.getLast? with
  | some c => c == '/' || c == '#'
  | none => false

/-- What follows a stem at the front of a text, unless that is empty or starts
with `//`. -/
def localPart? (stem s : String) : Option String :=
  match stem.toList.isPrefixOf? s.toList with
  | none => none
  | some rest => if rest.isEmpty || startsAuthority rest then none else some (String.ofList rest)

/-- The shorter of two compact forms; the first one of two equals. -/
def shorter (best : Option (String × String)) (candidate : String × String) :
    Option (String × String) :=
  match best with
  | none => some candidate
  | some b => if candidate.2.length < b.2.length then some candidate else some b

/-- The compact form with the shortest part behind its prefix, the first one of
several. -/
def shortest? (candidates : List (String × String)) : Option (String × String) :=
  candidates.foldl shorter none

end ObjectGraph.Iri
