import Mathlib.Logic.Basic
import ObjectGraph.Compile.Filter

/-!
# What relations say

The filter of a relation is made of tests by conjunction, disjunction and negation.  A test
has a variable beside the term of a value (`Filter.compared`), or looks for the text of a value
in that of the variable (`Filter.searched`).  Whatever truth values the tests have
(`Expression.Holds`; `!=` is the negation of `=`), the filter holds if the relation does
(`Filter.Says`): a relation to several values holds of one of them, a negated one of none, so
that a negated relation and its positive form never hold together and never fail together
(`Filter.holds_negated`).  There is a filter for each relation that compares and for as many
values as it needs, and for no other (`Filter.related_isSome_iff`).
-/

namespace ObjectGraph

open Json (Value)
open Sparql (Var Expression BinaryOp Builtin)

/-! ## Truth -/

namespace Sparql.Expression

/-- Whether an expression holds if the tests in it do for which `ν` does: comparisons, calls
and tests for existence. -/
def Holds (ν : Expression → Prop) : Expression → Prop
  | .binary .and l r => l.Holds ν ∧ r.Holds ν
  | .binary .or l r => l.Holds ν ∨ r.Holds ν
  | .binary .ne l r => ¬ ν (.binary .eq l r)
  | .not e => ¬ e.Holds ν
  | e => ν e

variable {ν : Expression → Prop} {g : Expression} {tests : List Expression}

/-- A chain of disjunctions holds if one of its members does. -/
theorem holds_foldl_or :
    (tests.foldl (.binary .or) g).Holds ν ↔ g.Holds ν ∨ ∃ t ∈ tests, t.Holds ν := by
  induction tests generalizing g with
  | nil => simp
  | cons t rest ih =>
      have hstep : (Expression.binary .or g t).Holds ν ↔ g.Holds ν ∨ t.Holds ν := by
        rw [Holds]
      rw [List.foldl_cons, ih, hstep, or_assoc]
      simp

/-- A chain of conjunctions holds if all of its members do. -/
theorem holds_foldl_and :
    (tests.foldl (.binary .and) g).Holds ν ↔ g.Holds ν ∧ ∀ t ∈ tests, t.Holds ν := by
  induction tests generalizing g with
  | nil => simp
  | cons t rest ih =>
      have hstep : (Expression.binary .and g t).Holds ν ↔ g.Holds ν ∧ t.Holds ν := by
        rw [Holds]
      rw [List.foldl_cons, ih, hstep, and_assoc]
      simp

/-- Tests that are joined by `||` hold if one of them does. -/
theorem holds_fold?_or (h : fold? .or tests = some g) :
    g.Holds ν ↔ ∃ t ∈ tests, t.Holds ν := by
  cases tests with
  | nil => cases h
  | cons t rest =>
      obtain rfl := Option.some.inj h
      rw [holds_foldl_or]
      simp

/-- Tests that are joined by `&&` hold if all of them do. -/
theorem holds_fold?_and (h : fold? .and tests = some g) :
    g.Holds ν ↔ ∀ t ∈ tests, t.Holds ν := by
  cases tests with
  | nil => cases h
  | cons t rest =>
      obtain rfl := Option.some.inj h
      rw [holds_foldl_and]
      simp

end Sparql.Expression

/-! ## Relations -/

/-- How many values a relation needs for a filter. -/
def Relation.leastValues : Relation → Nat
  | .between => 2
  | _ => 1

/-- The relation that a negated one denies. -/
def Relation.positive? : Relation → Option Relation
  | .notEqual => some .equal
  | .notAny => some .any
  | .notContains => some .contains
  | _ => none

namespace Filter

variable {x : Var} {ns : Namespaces} {kind : Kind} {relation : Relation} {values : List Value}
  {g : Expression}

/-- A variable beside the term that a value is under the kind of its property. -/
def compared (op : BinaryOp) (x : Var) (ns : Namespaces) (kind : Kind) (v : Value) :
    Expression :=
  .binary op (.var x) (.ofTerm (Encode.value ns kind v))

/-- The text that is looked for with a value: the value itself if it is a text, and what it
is written as in JSON otherwise. -/
def soughtText : Value → String
  | .str s => s
  | v => v.text

/-- A call with the text of a variable, and behind it the texts of values. -/
def searched (f : Builtin) (x : Var) (values : List Value) : Expression :=
  .call f (.call .str [.var x] :: values.map fun v => .literal (.plain (soughtText v)))

/-- What a relation says of a variable and values, in terms of single tests. -/
def Says (ν : Expression → Prop) (x : Var) (ns : Namespaces) (kind : Kind) :
    Relation → List Value → Prop
  | .equal, values | .any, values => ∃ v ∈ values, ν (compared .eq x ns kind v)
  | .notEqual, values | .notAny, values => ¬ ∃ v ∈ values, ν (compared .eq x ns kind v)
  | .contains, values => ∃ v ∈ values, ν (searched .contains x [v])
  | .notContains, values => ¬ ∃ v ∈ values, ν (searched .contains x [v])
  | .startWith, values => ∃ v ∈ values, ν (searched .strStarts x [v])
  | .endWith, values => ∃ v ∈ values, ν (searched .strEnds x [v])
  | .after, v :: _ => ν (compared .ge x ns kind v)
  | .before, v :: _ => ν (compared .le x ns kind v)
  | .between, low :: high :: _ =>
      ν (compared .ge x ns kind low) ∧ ν (compared .lt x ns kind high)
  | .regEx, pattern :: flags => ν (searched .regex x (pattern :: flags.take 1))
  | _, _ => False

/-- The filters compare with the terms of values. -/
theorem comparison_eq (op : BinaryOp) (v : Value) :
    comparison op x ns kind v = compared op x ns kind v := rfl

/-- The filters look for the texts of values. -/
theorem textTest_eq (f : Builtin) (values : List Value) :
    textTest f x values = searched f x values := by
  have hpattern : patternText = fun v => .literal (.plain (soughtText v)) := by
    funext v
    cases v <;> rfl
  rw [textTest, hpattern]
  rfl

variable {ν : Expression → Prop}

/-- A chain of tests, one per value, is there unless there is no value. -/
theorem fold?_map_isSome_iff {op : Sparql.BinaryOp} {test : Value → Expression} :
    (Expression.fold? op (values.map test)).isSome ↔ 1 ≤ values.length := by
  cases values with
  | nil => simp [Expression.fold?]
  | cons v rest => simp [Expression.fold?]

/-- A chain joined by `||` says that some value passes the test. -/
theorem anyOf_holds_iff {test : Value → Expression}
    (h : Expression.fold? .or (values.map test) = some g) :
    g.Holds ν ↔ ∃ v ∈ values, (test v).Holds ν := by
  rw [Expression.holds_fold?_or h]
  simp only [List.mem_map, exists_exists_and_eq_and]

/-- A chain of denied tests joined by `&&` says that no value passes the test. -/
theorem noneOf_holds_iff (test : Value → Expression) {denied : Value → Expression}
    (hdenied : ∀ v, (denied v).Holds ν ↔ ¬ (test v).Holds ν)
    (h : Expression.fold? .and (values.map denied) = some g) :
    g.Holds ν ↔ ¬ ∃ v ∈ values, (test v).Holds ν := by
  rw [Expression.holds_fold?_and h, List.forall_mem_map]
  simp only [hdenied, not_exists, not_and]

/-- **A relation has a filter** if it compares and the values suffice for it. -/
theorem related_isSome_iff : (related x ns kind relation values).isSome ↔
    relation.isExistence = false ∧ relation.leastValues ≤ values.length := by
  cases relation with
  | equal | any | notEqual | notAny | contains | notContains | startWith | endWith =>
      simp only [Relation.isExistence, Relation.leastValues, true_and]
      exact fold?_map_isSome_iff
  | after | before =>
      cases values <;> simp [related, Relation.isExistence, Relation.leastValues]
  | between =>
      match values with
      | [] | [_] | _ :: _ :: _ => simp [related, Relation.isExistence, Relation.leastValues]
  | regEx =>
      cases values <;> simp [related, Relation.isExistence, Relation.leastValues]
  | exist | notExist => simp [related, Relation.isExistence]

/-- **The filter of a relation** holds if what the relation says does. -/
theorem related_holds_iff (h : related x ns kind relation values = some g) :
    g.Holds ν ↔ Says ν x ns kind relation values := by
  cases relation with
  | equal | any =>
      simp only [Says, ← comparison_eq]
      exact anyOf_holds_iff h
  | notEqual | notAny =>
      simp only [Says, ← comparison_eq]
      exact noneOf_holds_iff (comparison .eq x ns kind) (fun _ => Iff.rfl) h
  | contains | startWith | endWith =>
      simp only [Says, ← textTest_eq]
      exact anyOf_holds_iff h
  | notContains =>
      simp only [Says, ← textTest_eq]
      exact noneOf_holds_iff (fun v => textTest .contains x [v]) (fun _ => Iff.rfl) h
  | after | before =>
      cases values with
      | nil => cases h
      | cons v rest =>
          obtain rfl := Option.some.inj h
          rfl
  | regEx =>
      cases values with
      | nil => cases h
      | cons pattern flags =>
          obtain rfl := Option.some.inj h
          simp only [Says, ← textTest_eq]
          rfl
  | between =>
      match values with
      | [] | [_] => cases h
      | low :: high :: rest =>
          obtain rfl := Option.some.inj h
          rfl
  | exist | notExist => cases h

/-- A negated relation holds exactly where its positive form fails. -/
theorem holds_negated {positive : Relation} {p : Expression}
    (hpositive : relation.positive? = some positive)
    (hg : related x ns kind relation values = some g)
    (hp : related x ns kind positive values = some p) : g.Holds ν ↔ ¬ p.Holds ν := by
  rw [related_holds_iff hg, related_holds_iff hp]
  cases relation with
  | notEqual | notAny | notContains =>
      obtain rfl := Option.some.inj hpositive
      rfl
  | _ => cases hpositive

/-- A single value is compared as the relation to it compares. -/
theorem equality_eq_related {v : Value} (h : ∀ items, v ≠ .arr items) :
    equality x ns kind v = related x ns kind .equal [v] := by
  cases v with
  | arr items => exact absurd rfl (h items)
  | null | bool | num | str | obj => rfl

/-- **Filters mean their relation**, whatever truth values the single tests have. -/
theorem related_means (x : Var) (ns : Namespaces) (kind : Kind) (relation : Relation)
    (values : List Value) (ν : Expression → Prop) :
    ((related x ns kind relation values).isSome ↔
        relation.isExistence = false ∧ relation.leastValues ≤ values.length) ∧
      (∀ g, related x ns kind relation values = some g →
        (g.Holds ν ↔ Says ν x ns kind relation values)) ∧
      (∀ positive, relation.positive? = some positive →
        ∀ g p, related x ns kind relation values = some g →
          related x ns kind positive values = some p → (g.Holds ν ↔ ¬ p.Holds ν)) ∧
      ∀ v, (∀ items, v ≠ .arr items) → equality x ns kind v = related x ns kind .equal [v] :=
  ⟨related_isSome_iff, fun _ h => related_holds_iff h,
    fun _ hpositive _ _ hg hp => holds_negated hpositive hg hp,
    fun _ h => equality_eq_related h⟩

/-- Of three values one is equal to the variable: the list has the value, and its negation
fails. -/
theorem related_means_listed :
    let x : Var := ⟨"x0"⟩
    let values : List Value := [.str "a", .num (.int 3), .str "b"]
    let ν : Expression → Prop := fun e => e = .binary .eq (.var x) (.literal (.plain "b"))
    ∃ g p, related x .exampleOrg .string .notAny values = some g ∧
      related x .exampleOrg .string .any values = some p ∧ p.Holds ν ∧ ¬ g.Holds ν ∧
      equality x .exampleOrg .string (.str "b") =
        related x .exampleOrg .string .equal [.str "b"] := by
  intro x values ν
  obtain ⟨-, hmeans, -, hsingle⟩ := related_means x .exampleOrg .string .any values ν
  obtain ⟨-, -, hnegated, -⟩ := related_means x .exampleOrg .string .notAny values ν
  have hany := (hmeans _ rfl).mpr ⟨.str "b", by simp [values], rfl⟩
  exact ⟨_, _, rfl, rfl, hany, fun h => (hnegated .any rfl _ _ rfl rfl).mp h hany,
    hsingle (.str "b") (by simp)⟩

end Filter

end ObjectGraph
