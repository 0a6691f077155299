import ObjectGraph.Sparql.Term

/-!
# Queries and updates

Expressions, group graph patterns, the two query forms and update requests.  The
patterns of a group keep their order.
-/

namespace ObjectGraph.Sparql

/-- An operator between two expressions. -/
inductive BinaryOp where
  | and | or | eq | ne | lt | le | gt | ge
  deriving DecidableEq

namespace BinaryOp

/-- The sign of an operator. -/
def sign : BinaryOp → String
  | .and => "&&"
  | .or => "||"
  | .eq => "="
  | .ne => "!="
  | .lt => "<"
  | .le => "<="
  | .gt => ">"
  | .ge => ">="

/-- How tightly an operator binds. -/
def precedence : BinaryOp → Nat
  | .or => 1
  | .and => 2
  | _ => 3

def all : List BinaryOp := [.and, .or, .eq, .ne, .lt, .le, .gt, .ge]

/-- The operator with a sign. -/
def ofSign? (s : String) : Option BinaryOp :=
  all.find? (·.sign == s)

end BinaryOp

/-- A built-in function. -/
inductive Builtin where
  | bound | str | lcase | contains | strStarts | strEnds | regex
  deriving DecidableEq

namespace Builtin

def name : Builtin → String
  | .bound => "BOUND"
  | .str => "STR"
  | .lcase => "LCASE"
  | .contains => "CONTAINS"
  | .strStarts => "STRSTARTS"
  | .strEnds => "STRENDS"
  | .regex => "REGEX"

def all : List Builtin := [.bound, .str, .lcase, .contains, .strStarts, .strEnds, .regex]

/-- The function with a name. -/
def ofName? (s : String) : Option Builtin :=
  all.find? (·.name == s)

end Builtin

mutual

/-- An expression. -/
inductive Expression where
  | var (v : Var)
  | literal (l : Literal)
  | iri (iri : String)
  | binary (op : BinaryOp) (left right : Expression)
  | not (operand : Expression)
  | call (function : Builtin) (args : List Expression)
  | exist (group : List Pattern)
  | notExist (group : List Pattern)

/-- A graph pattern. -/
inductive Pattern where
  | triples (triples : List Triple)
  | optional (group : List Pattern)
  | filter (condition : Expression)
  | bind (value : Expression) (v : Var)
  | group (group : List Pattern)
  | service (endpoint : String) (silent : Bool) (group : List Pattern)
  | subselect (query : Select)

/-- One key of an order. -/
structure OrderCondition where
  expression : Expression
  descending : Bool

/-- Order and cut of the solutions. -/
structure Modifiers where
  orderBy : List OrderCondition
  limit : Option Nat
  offset : Option Nat

/-- A SELECT query; without a list of variables it selects all of them. -/
structure Select where
  distinct : Bool
  projection : Option (List Var)
  body : List Pattern
  modifiers : Modifiers

end

instance : Inhabited Expression := ⟨.literal (.plain "")⟩

instance : Inhabited Pattern := ⟨.triples []⟩

instance : Inhabited Modifiers := ⟨⟨[], none, none⟩⟩

instance : Inhabited Select := ⟨⟨false, none, [], default⟩⟩

/-- A CONSTRUCT query. -/
structure Construct where
  template : List Triple
  body : List Pattern
  modifiers : Modifiers

/-- An operation of an update request. -/
inductive Operation where
  | insertData (triples : List Triple)
  | modify (delete insert : List Triple) (body : List Pattern)

/-- An update request. -/
abbrev Update := List Operation

namespace Modifiers

/-- Neither order nor cut. -/
def none : Modifiers := ⟨[], Option.none, Option.none⟩

/-- Whether there is neither order nor cut. -/
def isEmpty (m : Modifiers) : Bool :=
  m.orderBy.isEmpty && m.limit.isNone && m.offset.isNone

end Modifiers

/-- The SELECT of a list of variables, of all variables if the list is empty. -/
def Select.of (distinct : Bool) (vars : List Var) (body : List Pattern)
    (modifiers : Modifiers) : Select :=
  ⟨distinct, if vars.isEmpty then none else some vars, body, modifiers⟩

namespace Expression

def eq (left right : Expression) : Expression := .binary .eq left right

def ne (left right : Expression) : Expression := .binary .ne left right

/-- A list of expressions under an operator, grouped to the left. -/
def fold? (op : BinaryOp) : List Expression → Option Expression
  | [] => none
  | e :: rest => some (rest.foldl (.binary op) e)

/-- A term as an operand; a blank node stands as the text of its label. -/
def ofTerm : Term → Expression
  | .var v => .var v
  | .iri i => .iri i
  | .literal l => .literal l
  | .blank label => .literal (.plain ("_:" ++ label))

end Expression

namespace Pattern

/-- A group of one triple that may be missing. -/
def optionalTriple (t : Triple) : Pattern := .optional [.triples [t]]

/-- Whether a pattern holds no triple and nothing else. -/
def isVoid : Pattern → Bool
  | .triples [] => true
  | _ => false

end Pattern

end ObjectGraph.Sparql
