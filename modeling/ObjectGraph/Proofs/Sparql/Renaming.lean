import Mathlib.Logic.Equiv.Basic
import ObjectGraph.Compile.Filter

/-!
# Renaming variables

A renaming is a permutation of the variables.  It acts on terms, triples,
expressions and patterns, through every group that is nested in them.  Values of
conditions hold no variable, so the comparison of a variable with them is renamed
by renaming that one variable (`related_rename`, `equality_rename`), and the
variable can be read off the front of the expression (`related_lead`,
`equality_lead`).
-/

namespace ObjectGraph

open Json (Value)

namespace Sparql

/-- A permutation of the variables. -/
abbrev Renaming := Equiv.Perm Var

def Term.rename (ρ : Renaming) : Term → Term
  | .var v => .var (ρ v)
  | .iri i => .iri i
  | .literal l => .literal l
  | .blank label => .blank label

def Predicate.rename (ρ : Renaming) : Predicate → Predicate
  | .var v => .var (ρ v)
  | .iri i => .iri i
  | .path p => .path p

def Triple.rename (ρ : Renaming) (t : Triple) : Triple :=
  ⟨t.subject.rename ρ, t.predicate.rename ρ, t.object.rename ρ⟩

mutual

def Expression.rename (ρ : Renaming) : Expression → Expression
  | .var v => .var (ρ v)
  | .literal l => .literal l
  | .iri i => .iri i
  | .binary op l r => .binary op (l.rename ρ) (r.rename ρ)
  | .not e => .not (e.rename ρ)
  | .call f args => .call f (renameArguments ρ args)
  | .exist g => .exist (renameGroup ρ g)
  | .notExist g => .notExist (renameGroup ρ g)

def renameArguments (ρ : Renaming) : List Expression → List Expression
  | [] => []
  | e :: rest => e.rename ρ :: renameArguments ρ rest

def Pattern.rename (ρ : Renaming) : Pattern → Pattern
  | .triples ts => .triples (ts.map (Triple.rename ρ))
  | .optional g => .optional (renameGroup ρ g)
  | .filter e => .filter (e.rename ρ)
  | .bind e v => .bind (e.rename ρ) (ρ v)
  | .group g => .group (renameGroup ρ g)
  | .service endpoint silent g => .service endpoint silent (renameGroup ρ g)
  | .subselect q => .subselect (q.rename ρ)

def renameGroup (ρ : Renaming) : List Pattern → List Pattern
  | [] => []
  | p :: rest => p.rename ρ :: renameGroup ρ rest

def Select.rename (ρ : Renaming) : Select → Select
  | ⟨distinct, projection, body, ⟨orderBy, limit, offset⟩⟩ =>
    ⟨distinct, projection.map (List.map ρ), renameGroup ρ body,
      ⟨renameOrder ρ orderBy, limit, offset⟩⟩

def renameOrder (ρ : Renaming) : List OrderCondition → List OrderCondition
  | [] => []
  | ⟨e, descending⟩ :: rest => ⟨e.rename ρ, descending⟩ :: renameOrder ρ rest

end

@[simp] theorem Term.rename_var (ρ : Renaming) (v : Var) :
    (Term.var v).rename ρ = .var (ρ v) := rfl

/-- The first variable of an expression, if it starts with one. -/
def Expression.lead? : Expression → Option Var
  | .var v => some v
  | .binary _ l _ => l.lead?
  | .not e => e.lead?
  | .call _ (a :: _) => a.lead?
  | _ => none

/-- Different variables can be renamed to any other different ones, one by one, and none of
the fixed ones is moved by that. -/
theorem exists_renaming_fixing (fixed : Var → Prop) (pairs : List (Var × Var))
    (hleft : (pairs.map (·.1)).Nodup) (hright : (pairs.map (·.2)).Nodup)
    (hmoved : ∀ p ∈ pairs, ¬ fixed p.1 ∧ ¬ fixed p.2) :
    ∃ ρ : Renaming, (∀ p ∈ pairs, ρ p.1 = p.2) ∧ ∀ v, fixed v → ρ v = v := by
  induction pairs with
  | nil => exact ⟨Equiv.refl Var, by simp, fun _ _ => rfl⟩
  | cons q rest ih =>
      obtain ⟨hnew, hrest⟩ := List.nodup_cons.mp hleft
      obtain ⟨hnew', hrest'⟩ := List.nodup_cons.mp hright
      obtain ⟨hq, hmovedRest⟩ := List.forall_mem_cons.mp hmoved
      obtain ⟨ρ, hρ, hfixed⟩ := ih hrest hrest' hmovedRest
      refine ⟨ρ.trans (Equiv.swap (ρ q.1) q.2), fun p hp => ?_, fun v hv => ?_⟩
      · rcases List.mem_cons.mp hp with rfl | hp
        · exact Equiv.swap_apply_left _ _
        · -- the last swap moves neither the image of an earlier variable nor its new name
          have hfrom : p.2 ≠ ρ q.1 := fun heq =>
            hnew (List.mem_map.mpr ⟨p, hp, ρ.injective ((hρ p hp).trans heq)⟩)
          have hto : p.2 ≠ q.2 := fun heq => hnew' (List.mem_map.mpr ⟨p, hp, heq⟩)
          rw [Equiv.trans_apply, hρ p hp]
          exact Equiv.swap_apply_of_ne_of_ne hfrom hto
      · have hfrom : v ≠ ρ q.1 := fun heq =>
          hq.1 (ρ.injective ((hfixed v hv).trans heq) ▸ hv)
        have hto : v ≠ q.2 := fun heq => hq.2 (heq ▸ hv)
        rw [Equiv.trans_apply, hfixed v hv]
        exact Equiv.swap_apply_of_ne_of_ne hfrom hto

/-- Two different variables can be renamed to any two different ones. -/
theorem exists_renaming_pair {x y x' y' : Var} (h : x ≠ y) (h' : x' ≠ y') :
    ∃ ρ : Renaming, ρ x = x' ∧ ρ y = y' := by
  obtain ⟨ρ, hρ, -⟩ := exists_renaming_fixing (fun _ => False) [(x, x'), (y, y')] (by simp [h])
    (by simp [h']) (by simp)
  exact ⟨ρ, hρ (x, x') (by simp), hρ (y, y') (by simp)⟩

/-- Renaming passes through a list of expressions under an operator. -/
theorem fold?_rename (ρ : Renaming) (op : BinaryOp) (es : List Expression) :
    (Expression.fold? op es).map (Expression.rename ρ) =
      Expression.fold? op (es.map (Expression.rename ρ)) := by
  cases es with
  | nil => rfl
  | cons e rest =>
      simp only [Expression.fold?, Option.map_some, List.map_cons, Option.some.injEq]
      induction rest generalizing e with
      | nil => rfl
      | cons r rest ih =>
          simp only [List.foldl_cons, List.map_cons]
          rw [ih]
          rfl

/-- A list of expressions under an operator starts as its first one does. -/
theorem fold?_lead {op : BinaryOp} {es : List Expression} {g : Expression} {x : Var}
    (h : Expression.fold? op es = some g) (hes : ∀ e ∈ es, e.lead? = some x) :
    g.lead? = some x := by
  cases es with
  | nil => cases h
  | cons e rest =>
      obtain rfl := Option.some.inj h
      have hfirst : e.lead? = some x := hes e List.mem_cons_self
      clear h hes
      induction rest generalizing e with
      | nil => exact hfirst
      | cons r rest ih => exact ih (.binary op e r) hfirst

end Sparql

open Sparql

namespace Filter

variable (ns : Namespaces) (kind : Kind)

/-- The term that a value is compared as has no variable to rename. -/
theorem operand_rename (v : Value) (ρ : Renaming) :
    (operand ns kind v).rename ρ = operand ns kind v := by
  unfold operand
  obtain ⟨i, h⟩ | ⟨l, h⟩ := Encode.value_cases ns kind v <;> rw [h] <;> rfl

/-- A comparison is renamed at its variable. -/
theorem comparison_rename (op : BinaryOp) (x : Var) (v : Value) (ρ : Renaming) :
    (comparison op x ns kind v).rename ρ = comparison op (ρ x) ns kind v := by
  simp [comparison, Expression.rename, operand_rename]

/-- Patterns of texts have no variable to rename. -/
theorem renameArguments_patternText (vs : List Value) (ρ : Renaming) :
    renameArguments ρ (vs.map patternText) = vs.map patternText := by
  induction vs with
  | nil => rfl
  | cons v rest ih =>
      have hv : (patternText v).rename ρ = patternText v := by
        cases v <;> rfl
      simp [renameArguments, hv, ih]

/-- A text test is renamed at its variable. -/
theorem textTest_rename (f : Builtin) (x : Var) (args : List Value) (ρ : Renaming) :
    (textTest f x args).rename ρ = textTest f (ρ x) args := by
  simp [textTest, Expression.rename, renameArguments, renameArguments_patternText]

/-- Renaming the comparison with the values of a relation renames its variable. -/
theorem related_rename (x : Var) (relation : Relation) (values : List Value) (ρ : Renaming) :
    (related x ns kind relation values).map (Expression.rename ρ) =
      related (ρ x) ns kind relation values := by
  cases relation with
  | equal | any | notEqual | notAny =>
      simp only [related, fold?_rename, List.map_map]
      congr 2
      funext v
      exact comparison_rename ns kind _ x v ρ
  | contains | startWith | endWith =>
      simp only [related, fold?_rename, List.map_map]
      congr 2
      funext v
      exact textTest_rename _ x [v] ρ
  | notContains =>
      simp only [related, fold?_rename, List.map_map]
      congr 2
      funext v
      simp [Expression.rename, textTest_rename]
  | after | before => cases values <;> simp [related, comparison_rename]
  | between =>
      match values with
      | [] | [_] => rfl
      | _ :: _ :: _ => simp [related, Expression.rename, comparison_rename]
  | regEx => cases values <;> simp [related, textTest_rename]
  | exist | notExist => rfl

/-- A test of equality is renamed at its variable. -/
theorem equality_rename (x : Var) (v : Value) (ρ : Renaming) :
    (equality x ns kind v).map (Expression.rename ρ) = equality (ρ x) ns kind v := by
  cases v with
  | arr values => exact related_rename ns kind x .any values ρ
  | null | bool | num | str | obj => simp [equality, comparison_rename]

/-- The comparison with the values of a relation starts with its variable. -/
theorem related_lead {x : Var} {relation : Relation} {values : List Value} {g : Expression}
    (h : related x ns kind relation values = some g) : g.lead? = some x := by
  cases relation with
  | equal | any | notEqual | notAny | contains | notContains | startWith | endWith =>
      refine fold?_lead h ?_
      intro e he
      obtain ⟨v, _, rfl⟩ := List.mem_map.mp he
      rfl
  | after | before =>
      obtain ⟨v, _, rfl⟩ := Option.map_eq_some_iff.mp h
      rfl
  | between =>
      match values with
      | [] | [_] => cases h
      | _ :: _ :: _ => obtain rfl := Option.some.inj h; rfl
  | regEx =>
      cases values with
      | nil => cases h
      | cons v rest => obtain rfl := Option.some.inj h; rfl
  | exist | notExist => cases h

/-- A test of equality starts with its variable. -/
theorem equality_lead {x : Var} {v : Value} {g : Expression}
    (h : equality x ns kind v = some g) : g.lead? = some x := by
  cases v with
  | arr values =>
      have hany : related x ns kind .any values = some g := h
      exact related_lead ns kind hany
  | null | bool | num | str | obj => obtain rfl := Option.some.inj h; rfl

end Filter

end ObjectGraph
