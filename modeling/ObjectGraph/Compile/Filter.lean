import ObjectGraph.Constraint.Condition
import ObjectGraph.Literal
import ObjectGraph.Sparql.Query

/-!
# Filters

The expression that compares a variable with the values of a condition.  A
relation to several values holds if it holds for one of them, a negated relation
if it holds for none.  The existence relations compare nothing and have no
expression here.
-/

namespace ObjectGraph.Filter

open Json (Value)
open Sparql (Var Expression BinaryOp Builtin)

/-- A value as an operand, under the kind of its property. -/
def operand (ns : Namespaces) (kind : Kind) (v : Value) : Expression :=
  .ofTerm (Encode.value ns kind v)

/-- A comparison of a variable with a value. -/
def comparison (op : BinaryOp) (x : Var) (ns : Namespaces) (kind : Kind) (v : Value) :
    Expression :=
  .binary op (.var x) (operand ns kind v)

/-- A value as a pattern for texts: a text itself, else its JSON text. -/
def patternText : Value → Expression
  | .str s => .literal (.plain s)
  | v => .literal (.plain v.text)

/-- A test of the text of a variable. -/
def textTest (f : Builtin) (x : Var) (args : List Value) : Expression :=
  .call f (.call .str [.var x] :: args.map patternText)

/-- The expression of a relation between a variable and values, if the relation
has one and the values suffice for it. -/
def related (x : Var) (ns : Namespaces) (kind : Kind) (relation : Relation)
    (values : List Value) : Option Expression :=
  let anyOf (test : Value → Expression) := Expression.fold? .or (values.map test)
  let allOf (test : Value → Expression) := Expression.fold? .and (values.map test)
  match relation with
  | .equal | .any => anyOf (comparison .eq x ns kind)
  | .notEqual | .notAny => allOf (comparison .ne x ns kind)
  | .after => values.head?.map (comparison .ge x ns kind)
  | .before => values.head?.map (comparison .le x ns kind)
  | .between =>
    match values with
    | low :: high :: _ =>
      some (.binary .and (comparison .ge x ns kind low) (comparison .lt x ns kind high))
    | _ => none
  | .contains => anyOf fun v => textTest .contains x [v]
  | .notContains => allOf fun v => .not (textTest .contains x [v])
  | .startWith => anyOf fun v => textTest .strStarts x [v]
  | .endWith => anyOf fun v => textTest .strEnds x [v]
  | .regEx =>
    match values with
    | [] => none
    | values => some (textTest .regex x (values.take 2))
  | .exist | .notExist => none

/-- The expression that a variable has a value, or one of the items of an array. -/
def equality (x : Var) (ns : Namespaces) (kind : Kind) (v : Value) : Option Expression :=
  match v with
  | .arr values => related x ns kind .any values
  | v => some (comparison .eq x ns kind v)

end ObjectGraph.Filter
