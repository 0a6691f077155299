import Mathlib.Data.Set.Basic
import Mathlib.Logic.Relation
import ObjectGraph.Sparql.Query

/-!
# What queries and updates mean

A graph is a set of statements, a solution gives terms to some variables, and a group
of patterns has a set of solutions in a graph.  The patterns of a group extend the
solutions from left to right: triples join what matches them, an optional group is
joined from the left, and the filters of a group test what comes out at its end.  An
update looks for the solutions of its group in the old graph; it takes out what its
DELETE template becomes under them and puts in what its INSERT template becomes, where
a triple with an unbound variable becomes nothing.

What depends on the store and not on the syntax is an `Engine`: comparisons, functions,
remote graphs and the order and cut of sub-selects.
-/

namespace ObjectGraph

namespace Rdf

/-- A term of a graph. -/
inductive Term where
  | iri (iri : String)
  | blank (label : String)
  | literal (lexical datatype : String) (language : Option String)
  deriving DecidableEq, Inhabited

def Term.isLiteral : Term → Bool
  | .literal .. => true
  | _ => false

/-- An IRI is no literal. -/
theorem Term.isLiteral_iri (iri : String) : (Term.iri iri).isLiteral = false := rfl

/-- A truth value as a term. -/
def Term.ofBool (b : Bool) : Term :=
  .literal (if b then "true" else "false") Vocabulary.xsdBoolean none

/-- A triple of a graph; its subject is no literal. -/
@[ext]
structure Statement where
  subject : Term
  predicate : String
  object : Term
  subject_isNode : subject.isLiteral = false

abbrev Graph := Set Statement

/-- The terms at the ends of statements. -/
def Graph.nodes (G : Graph) : Set Term :=
  {x | ∃ s ∈ G, x = s.subject ∨ x = s.object}

end Rdf

namespace Sparql

/-- The term that a literal denotes. -/
def Literal.denoted : Literal → Rdf.Term
  | .plain text => .literal text Vocabulary.xsdString none
  | .tagged text language => .literal text Vocabulary.rdfLangString (some language)
  | .typed text datatype => .literal text datatype none
  | .boolean b => .ofBool b

/-- Terms for some variables. -/
abbrev Solution := Var → Option Rdf.Term

namespace Solution

def empty : Solution := fun _ => none

/-- Two solutions agree where both have a term. -/
def Compatible (μ ν : Solution) : Prop :=
  ∀ v a b, μ v = some a → ν v = some b → a = b

def merge (μ ν : Solution) : Solution :=
  fun v => (μ v).or (ν v)

/-- The solution with a term for one more variable. -/
def set (μ : Solution) (v : Var) (x : Option Rdf.Term) : Solution :=
  fun w => if w = v then (μ v).or x else μ w

end Solution

/-- What two sets of solutions have in common. -/
def join (Ω Ω' : Set Solution) : Set Solution :=
  {ρ | ∃ μ ∈ Ω, ∃ ν ∈ Ω', μ.Compatible ν ∧ ρ = μ.merge ν}

/-- Each solution of `Ω` with every extension that passes the test, and as it stands
if it has none. -/
def leftJoin (Ω Ω' : Set Solution) (test : Solution → Prop) : Set Solution :=
  {ρ | ∃ μ ∈ Ω,
    (∃ ν ∈ Ω', μ.Compatible ν ∧ test (μ.merge ν) ∧ ρ = μ.merge ν) ∨
      ((∀ ν ∈ Ω', μ.Compatible ν → ¬ test (μ.merge ν)) ∧ ρ = μ)}

/-- The term that a position of a pattern has under a solution; `σ` gives terms to
blank nodes. -/
def Term.value? (σ : String → Rdf.Term) (μ : Solution) : Term → Option Rdf.Term
  | .var v => μ v
  | .iri i => some (.iri i)
  | .literal l => some l.denoted
  | .blank label => some (σ label)

/-- The term that a term of a query is in every solution. -/
def Term.ground? : Term → Option Rdf.Term
  | .iri i => some (.iri i)
  | .literal l => some l.denoted
  | .var _ | .blank _ => none

/-- A path leads from one term to another; a path of length zero starts at a known
term. -/
def Path.Relates (G : Rdf.Graph) (known : Set Rdf.Term) : Path → Rdf.Term → Rdf.Term → Prop
  | .iri p, x, y => ∃ s ∈ G, s.subject = x ∧ s.predicate = p ∧ s.object = y
  | .inverse q, x, y => q.Relates G known y x
  | .zeroOrMore q, x, y => (x = y ∧ x ∈ known) ∨ Relation.TransGen (q.Relates G known) x y

namespace Triple

/-- The terms that stand at the ends of a pattern. -/
def constants (t : Triple) (σ : String → Rdf.Term) : Set Rdf.Term :=
  {x | t.subject.value? σ .empty = some x ∨ t.object.value? σ .empty = some x}

/-- A pattern becomes a statement. -/
def Denotes (t : Triple) (σ : String → Rdf.Term) (μ : Solution) (s : Rdf.Statement) : Prop :=
  t.subject.value? σ μ = some s.subject ∧ t.object.value? σ μ = some s.object ∧
    match t.predicate with
    | .iri p => s.predicate = p
    | .var v => μ v = some (.iri s.predicate)
    | .path _ => False

/-- A pattern matches in a graph. -/
def Matches (t : Triple) (G : Rdf.Graph) (σ : String → Rdf.Term) (μ : Solution) : Prop :=
  match t.predicate with
  | .path q => ∃ x y, t.subject.value? σ μ = some x ∧ t.object.value? σ μ = some y ∧
      q.Relates G (G.nodes ∪ t.constants σ) x y
  | _ => ∃ s ∈ G, t.Denotes σ μ s

end Triple

/-- The solutions of a block of triples. -/
def blockSolutions (G : Rdf.Graph) (ts : List Triple) : Set Solution :=
  {μ | (∀ v, (μ v).isSome ↔ v ∈ ts.flatMap Triple.vars) ∧ ∃ σ, ∀ t ∈ ts, t.Matches G σ μ}

/-- What the meaning of a query takes from the store. -/
structure Engine where
  /-- The comparison operators; no answer is an error. -/
  compare : BinaryOp → Rdf.Term → Rdf.Term → Option Bool
  /-- The built-in functions other than `BOUND`. -/
  call : Builtin → List (Option Rdf.Term) → Option Rdf.Term
  /-- The truth value of a term. -/
  truth : Rdf.Term → Option Bool
  /-- The graph behind an endpoint. -/
  remote : String → Rdf.Graph
  /-- Order and cut of solutions. -/
  cut : Modifiers → Set Solution → Set Solution
  /-- The new blank node that a label of a template stands for under a solution. -/
  fresh : Solution → String → Rdf.Term

/-- Conjunction where an error on one side gives way to a false other side. -/
def and? : Option Bool → Option Bool → Option Bool
  | some false, _ | _, some false => some false
  | some true, some true => some true
  | _, _ => none

/-- Disjunction where an error on one side gives way to a true other side. -/
def or? : Option Bool → Option Bool → Option Bool
  | some true, _ | _, some true => some true
  | some false, some false => some false
  | _, _ => none

/-- Whether the argument of `BOUND` has a term. -/
def isBound (μ : Solution) : List Expression → Bool
  | [.var v] => (μ v).isSome
  | _ => false

/-- The solutions with the variables of a projection only. -/
def project (projection : Option (List Var)) (Ω : Set Solution) : Set Solution :=
  match projection with
  | none => Ω
  | some vars => {ρ | ∃ μ ∈ Ω, ρ = fun v => if v ∈ vars then μ v else none}

open Classical in
mutual

/-- The value of an expression under a solution, if it is no error. -/
noncomputable def Expression.value? (E : Engine) (G : Rdf.Graph) (μ : Solution) :
    Expression → Option Rdf.Term
  | .var v => μ v
  | .literal l => some l.denoted
  | .iri i => some (.iri i)
  | .binary .and l r =>
    (and? ((l.value? E G μ).bind E.truth) ((r.value? E G μ).bind E.truth)).map .ofBool
  | .binary .or l r =>
    (or? ((l.value? E G μ).bind E.truth) ((r.value? E G μ).bind E.truth)).map .ofBool
  | .binary op l r => do
    let x ← l.value? E G μ
    let y ← r.value? E G μ
    (E.compare op x y).map .ofBool
  | .not e => ((e.value? E G μ).bind E.truth).map fun b => .ofBool !b
  | .call .bound args => some (.ofBool (isBound μ args))
  | .call f args => E.call f (argumentValues E G μ args)
  | .exist g => some (.ofBool (decide (∃ ν ∈ extendAll E G g {μ}, testAll E G ν g)))
  | .notExist g => some (.ofBool (decide ¬ ∃ ν ∈ extendAll E G g {μ}, testAll E G ν g))

noncomputable def argumentValues (E : Engine) (G : Rdf.Graph) (μ : Solution) :
    List Expression → List (Option Rdf.Term)
  | [] => []
  | e :: rest => e.value? E G μ :: argumentValues E G μ rest

/-- The solutions after one more pattern of a group. -/
noncomputable def Pattern.extend (E : Engine) (G : Rdf.Graph) :
    Pattern → Set Solution → Set Solution
  | .triples ts, Ω => join Ω (blockSolutions G ts)
  | .optional g, Ω => leftJoin Ω (extendAll E G g {.empty}) fun μ => testAll E G μ g
  | .filter _, Ω => Ω
  | .bind e v, Ω => {ρ | ∃ μ ∈ Ω, ρ = μ.set v (e.value? E G μ)}
  | .group g, Ω => join Ω {μ ∈ extendAll E G g {.empty} | testAll E G μ g}
  | .service endpoint _ g, Ω =>
    join Ω {μ ∈ extendAll E (E.remote endpoint) g {.empty} | testAll E (E.remote endpoint) μ g}
  | .subselect q, Ω => join Ω (q.solutions E G)

/-- A solution passes a pattern if that is no filter or holds of it. -/
noncomputable def Pattern.test (E : Engine) (G : Rdf.Graph) (μ : Solution) : Pattern → Prop
  | .filter e => (e.value? E G μ).bind E.truth = some true
  | _ => True

/-- The solutions after the patterns of a group, before its filters. -/
noncomputable def extendAll (E : Engine) (G : Rdf.Graph) :
    List Pattern → Set Solution → Set Solution
  | [], Ω => Ω
  | p :: rest, Ω => extendAll E G rest (p.extend E G Ω)

/-- A solution passes the filters of a group. -/
noncomputable def testAll (E : Engine) (G : Rdf.Graph) (μ : Solution) : List Pattern → Prop
  | [] => True
  | p :: rest => p.test E G μ ∧ testAll E G μ rest

/-- The solutions of a SELECT. -/
noncomputable def Select.solutions (E : Engine) (G : Rdf.Graph) : Select → Set Solution
  | ⟨_, projection, body, modifiers⟩ =>
    project projection (E.cut modifiers {μ ∈ extendAll E G body {.empty} | testAll E G μ body})

end

/-- An expression is true under a solution. -/
def Expression.IsTrue (E : Engine) (G : Rdf.Graph) (μ : Solution) (e : Expression) : Prop :=
  (e.value? E G μ).bind E.truth = some true

/-- The solutions of a group. -/
noncomputable def groupSolutions (E : Engine) (G : Rdf.Graph) (g : List Pattern) : Set Solution :=
  {μ ∈ extendAll E G g {.empty} | testAll E G μ g}

/-- The statements that a template becomes under solutions. -/
def instances (E : Engine) (template : List Triple) (Ω : Set Solution) : Rdf.Graph :=
  {s | ∃ μ ∈ Ω, ∃ t ∈ template, t.Denotes (E.fresh μ) μ s}

/-- The graph after an operation. -/
noncomputable def Operation.run (E : Engine) (G : Rdf.Graph) : Operation → Rdf.Graph
  | .insertData ts => G ∪ instances E ts {.empty}
  | .modify delete insert body =>
    let Ω := groupSolutions E G body
    (G \ instances E delete Ω) ∪ instances E insert Ω

/-- The graph after the operations of an update, one after the other. -/
noncomputable def Update.run (E : Engine) (G : Rdf.Graph) (update : Update) : Rdf.Graph :=
  update.foldl (Operation.run E) G

variable {E : Engine} {G : Rdf.Graph} {μ : Solution} {Ω Ω' : Set Solution}

@[simp] theorem Solution.empty_merge (μ : Solution) : Solution.empty.merge μ = μ := by
  funext v
  simp [merge, empty]

/-- The empty solution agrees with every other one. -/
theorem Solution.compatible_empty (μ : Solution) : Solution.empty.Compatible μ := by
  intro v a b h _
  cases h

/-- A term without a variable is the same in every solution. -/
theorem Term.value?_of_ground {t : Term} {x : Rdf.Term} (h : t.ground? = some x)
    (σ : String → Rdf.Term) (μ : Solution) : t.value? σ μ = some x := by
  cases t with
  | iri | literal => exact h
  | var | blank => cases h

namespace Expression

variable {ν : Solution}

/-- An operator looks at the values of its operands only. -/
theorem binary_value (op : BinaryOp) {l l' r r' : Expression}
    (hl : l.value? E G μ = l'.value? E G ν) (hr : r.value? E G μ = r'.value? E G ν) :
    (binary op l r).value? E G μ = (binary op l' r').value? E G ν := by
  cases op <;> simp only [value?, hl, hr]

/-- Tests under an operator have the same value if each of them has. -/
theorem fold?_value (op : BinaryOp) {α : Type} {test test' : α → Expression}
    (h : ∀ v, (test v).value? E G μ = (test' v).value? E G ν) (values : List α) :
    (fold? op (values.map test)).map (·.value? E G μ) =
      (fold? op (values.map test')).map (·.value? E G ν) := by
  have hrest : ∀ (rest : List α) (g g' : Expression), g.value? E G μ = g'.value? E G ν →
      ((rest.map test).foldl (.binary op) g).value? E G μ =
        ((rest.map test').foldl (.binary op) g').value? E G ν := by
    intro rest
    induction rest with
    | nil => exact fun _ _ hg => hg
    | cons v rest ih => exact fun _ _ hg => ih _ _ (binary_value op hg (h v))
  cases values with
  | nil => rfl
  | cons v rest => exact congrArg some (hrest rest _ _ (h v))

end Expression

/-- Solutions joined to the empty one are as they were. -/
theorem join_empty (Ω : Set Solution) : join {.empty} Ω = Ω := by
  ext ρ
  constructor
  · rintro ⟨μ, rfl, ν, hν, _, rfl⟩
    simpa using hν
  · intro hρ
    exact ⟨.empty, rfl, ρ, hρ, ρ.compatible_empty, by simp⟩

/-- A left join drops no solution and unbinds no variable. -/
theorem exists_mem_leftJoin {test : Solution → Prop} (hμ : μ ∈ Ω) :
    ∃ ρ ∈ leftJoin Ω Ω' test, ∀ v x, μ v = some x → ρ v = some x := by
  by_cases h : ∃ ν ∈ Ω', μ.Compatible ν ∧ test (μ.merge ν)
  · obtain ⟨ν, hν, hcompatible, htest⟩ := h
    refine ⟨μ.merge ν, ⟨μ, hμ, .inl ⟨ν, hν, hcompatible, htest, rfl⟩⟩, ?_⟩
    intro v x hx
    simp [Solution.merge, hx]
  · refine ⟨μ, ⟨μ, hμ, .inr ⟨?_, rfl⟩⟩, fun _ _ hx => hx⟩
    intro ν hν hcompatible htest
    exact h ⟨ν, hν, hcompatible, htest⟩

/-- The tests of a group are those of its patterns. -/
theorem testAll_iff {ps : List Pattern} : testAll E G μ ps ↔ ∀ p ∈ ps, p.test E G μ := by
  induction ps with
  | nil => simp [testAll]
  | cons p rest ih => simp [testAll, ih]

/-- The patterns of a group extend one after the other. -/
theorem extendAll_append (ps qs : List Pattern) (Ω : Set Solution) :
    extendAll E G (ps ++ qs) Ω = extendAll E G qs (extendAll E G ps Ω) := by
  induction ps generalizing Ω with
  | nil => rfl
  | cons p rest ih => simp only [List.cons_append, extendAll, ih]

/-- Where nothing matched before, no pattern makes a solution. -/
theorem extendAll_empty (ps : List Pattern) : extendAll E G ps ∅ = ∅ := by
  induction ps with
  | nil => rfl
  | cons p rest ih =>
      have hp : p.extend E G ∅ = ∅ := by
        cases p <;> simp [Pattern.extend, join, leftJoin]
      rw [extendAll, hp, ih]

/-- Without solutions a template becomes nothing. -/
theorem instances_empty (template : List Triple) : instances E template ∅ = ∅ := by
  simp [instances]

/-- A triple that may be missing is joined from the left. -/
theorem extend_optionalTriple (t : Triple) (Ω : Set Solution) :
    (Pattern.optionalTriple t).extend E G Ω =
      leftJoin Ω (blockSolutions G [t]) fun _ => True := by
  simp [Pattern.optionalTriple, Pattern.extend, extendAll, testAll, Pattern.test, join_empty]

end Sparql

end ObjectGraph
