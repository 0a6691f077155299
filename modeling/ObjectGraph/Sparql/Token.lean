import ObjectGraph.Namespaces
import ObjectGraph.Sparql.Term
import ObjectGraph.Text.Alphanumeric
import ObjectGraph.Text.Quoted

/-!
# Tokens

A query is first written as tokens and gaps, which hold full IRIs and do not
know any namespace; `Token.text` then gives each token its characters.  So the
compact and the full text of a query differ in its IRIs only, and the prefixes
that a text needs are those of the tokens in it.
-/

namespace ObjectGraph.Sparql

/-- A token of a query, or the gap between two of them. -/
inductive Token where
  /-- A keyword, an operator, a bracket or a number. -/
  | word (text : String)
  | variable (v : Var)
  | iri (iri : String)
  /-- The text of a literal. -/
  | quoted (text : String)
  | language (tag : String)
  | blank (label : String)
  | gap (text : String)
  deriving DecidableEq

/-- How IRIs are written: in full, or in compact form where a namespace map has
one. -/
inductive IriStyle where
  | full
  | compact (ns : Namespaces)

/-- A character of a local name. -/
def isLocalChar (c : Char) : Bool :=
  Text.isAlphanumeric c || c == '_' || c == '-' || c == '.'

/-- Whether a text can follow a prefix and its colon as it stands. -/
def isLocalName (s : String) : Bool :=
  match s.toList with
  | [] => false
  | c :: rest =>
    (c :: rest).all isLocalChar && c != '-' && c != '.' && (c :: rest).getLast? != some '.'

/-- The prefix and the local name that stand for an IRI. -/
def IriStyle.compactForm? (style : IriStyle) (iri : String) : Option (String × String) :=
  match style with
  | .full => none
  | .compact ns => (ns.split? iri).filter fun parts => isLocalName parts.2

namespace Token

/-- The characters of a token. -/
def text (style : IriStyle) : Token → String
  | .word s => s
  | .variable v => v.text
  | .iri i =>
    match style.compactForm? i with
    | some (name, rest) => name ++ ":" ++ rest
    | none => "<" ++ i ++ ">"
  | .quoted s => "\"" ++ Text.escapeLiteral s ++ "\""
  | .language tag => "@" ++ tag
  | .blank label => "_:" ++ label
  | .gap s => s

/-- The prefix that a token needs. -/
def usedPrefix? (style : IriStyle) : Token → Option String
  | .iri i => (style.compactForm? i).map (·.1)
  | _ => none

end Token

/-- The characters of a list of tokens. -/
def textOf (style : IriStyle) (ts : List Token) : String :=
  String.join (ts.map (Token.text style))

/-- The prefixes that a list of tokens needs with their stems, in the order of
the namespace map. -/
def usedPrefixes (style : IriStyle) (ts : List Token) : List (String × String) :=
  match style with
  | .full => []
  | .compact ns =>
    let used := ts.filterMap (Token.usedPrefix? style)
    ns.entries.filter fun e => used.contains e.1

/-- The declaration of a prefix. -/
def declaration (entry : String × String) : String :=
  "PREFIX " ++ entry.1 ++ ": <" ++ entry.2 ++ ">\n"

/-- The declarations of the prefixes that a list of tokens needs. -/
def declarations (style : IriStyle) (ts : List Token) : String :=
  String.join ((usedPrefixes style ts).map declaration)

/-- The text of a query: its declarations, then its tokens. -/
def documentOf (style : IriStyle) (ts : List Token) : String :=
  declarations style ts ++ textOf style ts

end ObjectGraph.Sparql
