import ObjectGraph.Sparql.Query
import ObjectGraph.Sparql.Token

/-!
# Writing queries

The tokens of terms, expressions, patterns, queries and updates.  The patterns
of an outermost group stand on lines of their own, and so do its triples; inner
groups stay on one line.  An operand is put between parentheses when it binds
more loosely than its operator, on the right also when it binds as tightly; the
operand of `!` when it is binary.
-/

namespace ObjectGraph.Sparql

/-- The tokens of a list of pieces with gaps of one space. -/
def spaced (parts : List (List Token)) : List Token :=
  List.intercalate [.gap " "] parts

/-- Pieces between braces on one line. -/
def braced (parts : List (List Token)) : List Token :=
  if parts.isEmpty then [.word "\x7b", .gap " ", .word "\x7d"]
  else [.word "\x7b", .gap " "] ++ spaced parts ++ [.gap " ", .word "\x7d"]

/-- Tokens between parentheses. -/
def parenthesized (ts : List Token) : List Token :=
  .word "(" :: ts ++ [.word ")"]

/-- Tokens between parentheses where a condition asks for them. -/
def parenthesizedIf (condition : Bool) (ts : List Token) : List Token :=
  if condition then parenthesized ts else ts

/-- An indented line. -/
def line (ts : List Token) : List Token :=
  .gap "  " :: ts ++ [.gap "\n"]

def Literal.tokens : Literal → List Token
  | .plain s => [.quoted s]
  | .tagged s language => [.quoted s, .language language]
  | .typed s datatype => [.quoted s, .word "^^", .iri datatype]
  | .boolean b => [.word (if b then "true" else "false")]

def Term.tokens : Term → List Token
  | .var v => [.variable v]
  | .iri i => [.iri i]
  | .literal l => l.tokens
  | .blank label => [.blank label]

/-- The tokens of a path; an operand that is not a single IRI is put between
parentheses. -/
def Path.tokens : Path → List Token
  | .iri i => [.iri i]
  | .inverse p => .word "^" :: parenthesizedIf (!p.isSimple) p.tokens
  | .zeroOrMore p => parenthesizedIf (!p.isSimple) p.tokens ++ [.word "*"]

def Predicate.tokens : Predicate → List Token
  | .var v => [.variable v]
  | .iri i => [.iri i]
  | .path p => p.tokens

def Triple.tokens (t : Triple) : List Token :=
  spaced [t.subject.tokens, t.predicate.tokens, t.object.tokens, [.word "."]]

/-- Whether an operand of an operator stands between parentheses. -/
def Expression.needsParentheses (parent : BinaryOp) (onRight : Bool) : Expression → Bool
  | .binary op _ _ =>
    decide (op.precedence < parent.precedence) ||
      (onRight && decide (op.precedence = parent.precedence))
  | _ => false

/-- Whether an expression is an operator between two others. -/
def Expression.isBinary : Expression → Bool
  | .binary _ _ _ => true
  | _ => false

/-- The head of a SELECT query. -/
def headTokens (distinct : Bool) (projection : Option (List Var)) : List Token :=
  let distinct := if distinct then [[.word "DISTINCT"]] else []
  let vars :=
    match projection with
    | none => [[.word "*"]]
    | some vs => vs.map fun v => [.variable v]
  spaced ([.word "SELECT"] :: distinct ++ vars)

/-- The parts of order and cut, each behind a gap. -/
def modifierTokens (gap : String) (keys : List (List Token)) (limit offset : Option Nat) :
    List Token :=
  let order :=
    if keys.isEmpty then []
    else [.gap gap, .word "ORDER", .gap " ", .word "BY", .gap " "] ++ spaced keys
  let cut (word : String) (n : Option Nat) : List Token :=
    match n with
    | none => []
    | some n => [.gap gap, .word word, .gap " ", .word (toString n)]
  order ++ cut "LIMIT" limit ++ cut "OFFSET" offset

mutual

def Expression.tokens : Expression → List Token
  | .var v => [.variable v]
  | .literal l => l.tokens
  | .iri i => [.iri i]
  | .binary op l r =>
    parenthesizedIf (l.needsParentheses op false) l.tokens ++
      [.gap " ", .word op.sign, .gap " "] ++
      parenthesizedIf (r.needsParentheses op true) r.tokens
  | .not e => .word "!" :: parenthesizedIf e.isBinary e.tokens
  | .call f args =>
    .word f.name ::
      parenthesized (List.intercalate [.word ",", .gap " "] (argumentTokens args))
  | .exist g => [.word "EXISTS", .gap " "] ++ braced (groupTokens g)
  | .notExist g =>
    [.word "NOT", .gap " ", .word "EXISTS", .gap " "] ++ braced (groupTokens g)

/-- The tokens of each argument of a call. -/
def argumentTokens : List Expression → List (List Token)
  | [] => []
  | e :: rest => e.tokens :: argumentTokens rest

/-- The tokens of a pattern on one line. -/
def Pattern.tokens : Pattern → List Token
  | .triples ts => spaced (ts.map Triple.tokens)
  | .optional g => [.word "OPTIONAL", .gap " "] ++ braced (groupTokens g)
  | .filter (.exist g) =>
    [.word "FILTER", .gap " ", .word "EXISTS", .gap " "] ++ braced (groupTokens g)
  | .filter (.notExist g) =>
    [.word "FILTER", .gap " ", .word "NOT", .gap " ", .word "EXISTS", .gap " "] ++
      braced (groupTokens g)
  | .filter e => .word "FILTER" :: parenthesized e.tokens
  | .bind e v =>
    .word "BIND" ::
      parenthesized (e.tokens ++ [.gap " ", .word "AS", .gap " ", .variable v])
  | .group g => braced (groupTokens g)
  | .service endpoint silent g =>
    [.word "SERVICE", .gap " "] ++ (if silent then [.word "SILENT", .gap " "] else []) ++
      [.iri endpoint, .gap " "] ++ braced (groupTokens g)
  | .subselect q => braced [q.tokens]

/-- The tokens of each pattern of a group that holds anything. -/
def groupTokens : List Pattern → List (List Token)
  | [] => []
  | p :: rest => if p.isVoid then groupTokens rest else p.tokens :: groupTokens rest

/-- The tokens of a SELECT query on one line. -/
def Select.tokens : Select → List Token
  | ⟨distinct, projection, body, ⟨orderBy, limit, offset⟩⟩ =>
    headTokens distinct projection ++ [.gap " ", .word "WHERE", .gap " "] ++
      braced (groupTokens body) ++ modifierTokens " " (orderTokens orderBy) limit offset

/-- The tokens of each key of an order. -/
def orderTokens : List OrderCondition → List (List Token)
  | [] => []
  | ⟨e, descending⟩ :: rest =>
    (.word (if descending then "DESC" else "ASC") :: parenthesized e.tokens) ::
      orderTokens rest

end

/-- A list of triples, each on a line. -/
def templateTokens (ts : List Triple) : List Token :=
  ts.flatMap fun t => line t.tokens

/-- The outermost patterns, each on a line, and triples each on their own. -/
def blockTokens (body : List Pattern) : List Token :=
  body.flatMap fun p =>
    match p with
    | .triples ts => templateTokens ts
    | p => line p.tokens

/-- A keyword and a block of lines between braces. -/
def blockOf (keyword : List Token) (lines : List Token) : List Token :=
  keyword ++ [.gap " ", .word "\x7b", .gap "\n"] ++ lines ++ [.word "\x7d"]

/-- The tokens of order and cut behind an outermost group. -/
def Modifiers.tokens (m : Modifiers) : List Token :=
  modifierTokens "\n" (orderTokens m.orderBy) m.limit m.offset

/-- The tokens of a SELECT query with its patterns on lines of their own. -/
def Select.document (q : Select) : List Token :=
  blockOf (headTokens q.distinct q.projection ++ [.gap " ", .word "WHERE"])
    (blockTokens q.body) ++ q.modifiers.tokens

/-- The tokens of a CONSTRUCT query. -/
def Construct.document (q : Construct) : List Token :=
  blockOf [.word "CONSTRUCT"] (templateTokens q.template) ++ [.gap "\n"] ++
    blockOf [.word "WHERE"] (blockTokens q.body) ++ q.modifiers.tokens

/-- A template of an update, which is left out if it is empty. -/
def clauseTokens (keyword : String) (ts : List Triple) : List Token :=
  if ts.isEmpty then [] else blockOf [.word keyword] (templateTokens ts) ++ [.gap "\n"]

/-- The tokens of an operation. -/
def Operation.document : Operation → List Token
  | .insertData ts => blockOf [.word "INSERT", .gap " ", .word "DATA"] (templateTokens ts)
  | .modify delete insert body =>
    clauseTokens "DELETE" delete ++ clauseTokens "INSERT" insert ++
      blockOf [.word "WHERE"] (blockTokens body)

/-- The tokens of an update request, its operations apart by semicolons. -/
def updateDocument (update : Update) : List Token :=
  List.intercalate [.gap " ", .word ";", .gap "\n"] (update.map Operation.document)

end ObjectGraph.Sparql
