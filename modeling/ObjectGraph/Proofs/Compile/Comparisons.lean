import ObjectGraph.Proofs.Compile.Draft
import ObjectGraph.Proofs.Sparql.Trees

/-!
# What a filter compares

A condition is a comparison of one variable with values, or a test for existence.  The first
kind is closed under negation and the operators between tests (`Filter.Checks`), and nothing
else comes of a relation or of a value.  So such a filter reads its own variable and no other
(`Filter.Checks.mem_openVars_iff`), and it tests no group; a test for existence reads no
variable outside of its group.
-/

namespace ObjectGraph

open Json (Value)
open Sparql (Var Term Expression Pattern BinaryOp Builtin)

namespace Sparql

mutual

/-- The variables that an expression reads outside of its tests for existence. -/
def Expression.openVars : Expression → List Var
  | .var v => [v]
  | .literal _ | .iri _ => []
  | .binary _ l r => l.openVars ++ r.openVars
  | .not e => e.openVars
  | .call _ args => argumentVars args
  | .exist _ | .notExist _ => []

def argumentVars : List Expression → List Var
  | [] => []
  | e :: rest => e.openVars ++ argumentVars rest

end

end Sparql

namespace Filter

variable {ns : Namespaces} {kind : Kind} {x : Var}

/-- Tests of one variable against values, and what operators make of them. -/
inductive Checks (ns : Namespaces) (kind : Kind) (x : Var) : Expression → Prop
  | value (op : BinaryOp) (v : Value) : Checks ns kind x (comparison op x ns kind v)
  | text (f : Builtin) (args : List Value) : Checks ns kind x (textTest f x args)
  | not {e : Expression} (operand : Checks ns kind x e) : Checks ns kind x (.not e)
  | binary {op : BinaryOp} {l r : Expression} (left : Checks ns kind x l)
      (right : Checks ns kind x r) : Checks ns kind x (.binary op l r)

/-- What chains filters of a condition is a filter of it. -/
theorem Checks.fold {op : BinaryOp} {es : List Expression} {g : Expression}
    (h : Expression.fold? op es = some g) (hes : ∀ e ∈ es, Checks ns kind x e) :
    Checks ns kind x g := by
  cases es with
  | nil => cases h
  | cons e rest =>
      obtain rfl := Option.some.inj h
      obtain ⟨hfirst, hrest⟩ := List.forall_mem_cons.mp hes
      exact List.foldlRecOn rest _ hfirst fun d hd r hr => hd.binary (hrest r hr)

/-- A relation to values compares the variable. -/
theorem related_checks {relation : Relation} {values : List Value} {g : Expression}
    (h : related x ns kind relation values = some g) : Checks ns kind x g := by
  cases relation with
  | equal | any | notEqual | notAny =>
      exact .fold h (List.forall_mem_map.mpr fun v _ => .value _ v)
  | contains | startWith | endWith =>
      exact .fold h (List.forall_mem_map.mpr fun v _ => .text _ [v])
  | notContains => exact .fold h (List.forall_mem_map.mpr fun v _ => .not (.text _ [v]))
  | after | before =>
      obtain ⟨v, -, rfl⟩ := Option.map_eq_some_iff.mp h
      exact .value _ v
  | between =>
      match values with
      | [] | [_] => cases h
      | low :: high :: _ =>
          obtain rfl := Option.some.inj h
          exact .binary (.value .ge low) (.value .lt high)
  | regEx =>
      cases values with
      | nil => cases h
      | cons v rest =>
          obtain rfl := Option.some.inj h
          exact .text _ _
  | exist | notExist => cases h

/-- The filter of a plain value compares with that value. -/
theorem equality_checks {v : Value} {g : Expression} (h : equality x ns kind v = some g) :
    Checks ns kind x g := by
  cases v with
  | arr values =>
      have hany : related x ns kind .any values = some g := h
      exact related_checks hany
  | null | bool | num | str | obj =>
      obtain rfl := Option.some.inj h
      exact .value .eq _

/-- An operand is a term without variables. -/
theorem operand_cases (ns : Namespaces) (kind : Kind) (v : Value) :
    (∃ i, operand ns kind v = .iri i) ∨ ∃ l, operand ns kind v = .literal l := by
  obtain ⟨i, h⟩ | ⟨l, h⟩ := Encode.value_cases ns kind v
  · exact .inl ⟨i, by rw [operand, h]; rfl⟩
  · exact .inr ⟨l, by rw [operand, h]; rfl⟩

/-- Patterns of text tests are literals, without variables. -/
theorem argumentVars_patternText (args : List Value) :
    Sparql.argumentVars (args.map patternText) = [] := by
  induction args with
  | nil => rfl
  | cons v rest ih => cases v <;> simpa [Sparql.argumentVars, patternText, Expression.openVars]

/-- Patterns of text tests are literals, without groups. -/
theorem argumentGroups_patternText (args : List Value) :
    Sparql.argumentGroups (args.map patternText) = [] := by
  induction args with
  | nil => rfl
  | cons v rest ih =>
      cases v <;> simpa [Sparql.argumentGroups, patternText, Expression.testedGroups]

namespace Checks

variable {g : Expression}

/-- A comparison reads its variable and no other. -/
theorem mem_openVars_iff (h : Checks ns kind x g) (v : Var) : v ∈ g.openVars ↔ v = x := by
  induction h with
  | value op w =>
      obtain ⟨i, hi⟩ | ⟨l, hl⟩ := operand_cases ns kind w
      · simp [comparison, hi, Expression.openVars]
      · simp [comparison, hl, Expression.openVars]
  | text f args =>
      simp [textTest, Expression.openVars, Sparql.argumentVars, argumentVars_patternText]
  | not _ ih => exact ih
  | binary _ _ ih ih' => simp [Expression.openVars, ih, ih']

/-- A comparison tests no group. -/
theorem testedGroups_eq (h : Checks ns kind x g) : g.testedGroups = [] := by
  induction h with
  | value op w =>
      obtain ⟨i, hi⟩ | ⟨l, hl⟩ := operand_cases ns kind w
      · simp [comparison, hi, Expression.testedGroups]
      · simp [comparison, hl, Expression.testedGroups]
  | text f args =>
      simp [textTest, Expression.testedGroups, Sparql.argumentGroups, argumentGroups_patternText]
  | not _ ih => exact ih
  | binary _ _ ih ih' => simp [Expression.testedGroups, ih, ih']

end Checks

end Filter

/-- The test of a link has no open variable, as its witness is bound by the group. -/
theorem Mapping.openVars_test (m : Mapping) (relation : Relation) (subject : Term)
    (witness : Var) : (m.test relation subject witness).openVars = [] := by
  unfold test
  split <;> rfl

/-- The filter of a condition that narrows compares the variable of the key; any other is a
test for existence. -/
theorem Draft.conditionFilter_checks {ns : Namespaces} {e : Entity} {subject : Term}
    {m : Mapping} {key : String} {x : Var} {c : Condition} {a : Allocator} {g : Expression}
    (h : (conditionFilter ns e subject m key x c a).1 = some g) :
    c.narrows = true ∧ Filter.Checks ns (e.schema.kindOf key).element x g ∨
      c.narrows = false ∧ ∃ relation witness, g = m.test relation subject witness := by
  cases c with
  | shared | computed => cases h
  | value v => exact .inl ⟨rfl, Filter.equality_checks h⟩
  | related relation values =>
      cases hrelation : relation.isExistence with
      | true =>
          simp only [conditionFilter, hrelation, if_true] at h
          obtain rfl := Option.some.inj h
          exact .inr ⟨by simp [Condition.narrows, hrelation], relation, _, rfl⟩
      | false =>
          have hrelated : Filter.related x ns (e.schema.kindOf key).element relation values =
              some g := by
            simpa [conditionFilter, hrelation] using h
          exact .inl ⟨by simp [Condition.narrows, hrelation], Filter.related_checks hrelated⟩

end ObjectGraph
