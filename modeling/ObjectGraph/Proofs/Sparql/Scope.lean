import ObjectGraph.Proofs.Sparql.Semantics

/-!
# Variables in scope

A pattern gives values to the variables of its triples and to computed ones, through every
group that is nested in it.  What stands in a filter is not seen outside of it, and a
sub-select shows the variables that it projects and no others (`Pattern.scope`).

No solution binds anything else (`Pattern.extend_confined`), provided that the store makes
no solutions up when it orders and cuts them.  So a sub-select that projects all that its
group has in scope has the solutions of the group, cut: the projection takes nothing away
(`solutions_of`).  Nor does what stands beside it: every solution of a group has all the
bindings of a solution of each sub-select in it (`extends_of_subselect`), and other bindings only
for what stands beside the sub-select (`agrees_with_subselect`).
-/

namespace ObjectGraph.Sparql

mutual

/-- The variables that a pattern can bind for what stands beside it. -/
def Pattern.scope : Pattern → List Var
  | .triples ts => ts.flatMap Triple.vars
  | .optional g | .group g | .service _ _ g => groupScope g
  | .filter _ => []
  | .bind _ v => [v]
  | .subselect q => q.scope

/-- The variables that a group can bind. -/
def groupScope : List Pattern → List Var
  | [] => []
  | p :: rest => p.scope ++ groupScope rest

/-- The variables that a SELECT shows. -/
def Select.scope : Select → List Var
  | ⟨_, none, body, _⟩ => groupScope body
  | ⟨_, some vars, body, _⟩ => (groupScope body).filter (· ∈ vars)

end

/-- The scope of a group is that of its patterns. -/
theorem groupScope_eq_flatMap (g : List Pattern) : groupScope g = g.flatMap Pattern.scope := by
  induction g with
  | nil => rfl
  | cons p rest ih => rw [groupScope, List.flatMap_cons, ih]

/-- A variable is in the scope of a group if it is in that of a pattern. -/
theorem mem_groupScope {g : List Pattern} {v : Var} :
    v ∈ groupScope g ↔ ∃ p ∈ g, v ∈ p.scope := by
  rw [groupScope_eq_flatMap, List.mem_flatMap]

theorem groupScope_append (g g' : List Pattern) :
    groupScope (g ++ g') = groupScope g ++ groupScope g' := by
  simp only [groupScope_eq_flatMap, List.flatMap_append]

/-- The scope of several groups is that of each. -/
theorem groupScope_flatMap {α : Type} (l : List α) (g : α → List Pattern) :
    groupScope (l.flatMap g) = l.flatMap fun x => groupScope (g x) := by
  simp only [groupScope_eq_flatMap, List.flatMap_assoc]

/-- A block of triples, left out if there is none, binds the variables of the triples. -/
theorem mem_scope_block {ts : List Triple} {v : Var} :
    v ∈ groupScope (if ts.isEmpty then [] else [.triples ts]) ↔ ∃ t ∈ ts, v ∈ t.vars := by
  split
  next hempty => simp [groupScope, List.isEmpty_iff.mp hempty]
  next => simp [groupScope, Pattern.scope]

/-- A SELECT that projects all that its group has in scope shows all of it. -/
theorem mem_scope_of {distinct : Bool} {vars : List Var} {body : List Pattern}
    {modifiers : Modifiers} (h : groupScope body ⊆ vars) {v : Var} :
    v ∈ (Select.of distinct vars body modifiers).scope ↔ v ∈ groupScope body := by
  unfold Select.of
  split
  · rfl
  · simp only [Select.scope, List.mem_filter, decide_eq_true_eq]
    exact and_iff_left_of_imp (@h v)

/-- No solution binds a variable outside of `V`. -/
def Confined (V : Var → Prop) (Ω : Set Solution) : Prop :=
  ∀ μ ∈ Ω, ∀ v, (μ v).isSome → V v

namespace Confined

variable {V V' : Var → Prop} {Ω Ω' : Set Solution}

/-- Fewer solutions may bind no more, and more variables may be allowed. -/
theorem mono (h : Confined V Ω) (hsub : Ω' ⊆ Ω) (himp : ∀ v, V v → V' v) : Confined V' Ω' :=
  fun μ hμ v hv => himp v (h μ (hsub hμ) v hv)

/-- The empty solution binds nothing. -/
theorem empty : Confined V {.empty} := by
  rintro μ rfl v hv
  cases hv

/-- What two solutions bind together one of them binds. -/
theorem merge {μ ν : Solution} (hμ : ∀ v, (μ v).isSome → V v) (hν : ∀ v, (ν v).isSome → V' v)
    {v : Var} (hv : (μ.merge ν v).isSome) : V v ∨ V' v := by
  rw [Solution.merge, Option.isSome_or, Bool.or_eq_true] at hv
  exact hv.imp (hμ v) (hν v)

/-- A join binds what its sides bind. -/
theorem join (h : Confined V Ω) (h' : Confined V' Ω') :
    Confined (fun v => V v ∨ V' v) (Sparql.join Ω Ω') := by
  rintro ρ ⟨μ, hμ, ν, hν, -, rfl⟩ v hv
  exact merge (h μ hμ) (h' ν hν) hv

theorem leftJoin (h : Confined V Ω) (h' : Confined V' Ω') (test : Solution → Prop) :
    Confined (fun v => V v ∨ V' v) (Sparql.leftJoin Ω Ω' test) := by
  rintro ρ ⟨μ, hμ, ⟨ν, hν, -, -, rfl⟩ | ⟨-, rfl⟩⟩ v hv
  · exact merge (h μ hμ) (h' ν hν) hv
  · exact .inl (h ρ hμ v hv)

/-- Where nothing is bound outside of a projection, it takes nothing away. -/
theorem project {vars : List Var} (h : Confined (· ∈ vars) Ω) :
    Sparql.project (some vars) Ω = Ω := by
  have hsame : ∀ μ ∈ Ω, (fun v => if v ∈ vars then μ v else none) = μ := by
    intro μ hμ
    funext v
    split
    · rfl
    next hv =>
      cases hx : μ v with
      | none => rfl
      | some x => exact (hv (h μ hμ v (by rw [hx]; rfl))).elim
  ext ρ
  constructor
  · rintro ⟨μ, hμ, rfl⟩
    rw [hsame μ hμ]
    exact hμ
  · intro hρ
    exact ⟨ρ, hρ, (hsame ρ hρ).symm⟩

end Confined

/-- A block binds the variables of its triples. -/
theorem blockSolutions_confined (G : Rdf.Graph) (ts : List Triple) :
    Confined (· ∈ ts.flatMap Triple.vars) (blockSolutions G ts) :=
  fun _ hμ v hv => (hμ.1 v).mp hv

/-- What is left of solutions that are ordered and cut is among them. -/
def Engine.CutsOnly (E : Engine) : Prop :=
  ∀ modifiers Ω, E.cut modifiers Ω ⊆ Ω

variable {E : Engine}

mutual

/-- A pattern binds what it has in scope and nothing else. -/
theorem Pattern.extend_confined (hE : E.CutsOnly) (p : Pattern) (G : Rdf.Graph)
    {V : Var → Prop} {Ω : Set Solution} (h : Confined V Ω) :
    Confined (fun v => V v ∨ v ∈ p.scope) (p.extend E G Ω) :=
  match p with
  | .triples ts => by
      rw [Pattern.extend]
      exact h.join (blockSolutions_confined G ts)
  | .optional g => by
      rw [Pattern.extend]
      exact h.leftJoin (group_confined hE g G) _
  | .filter _ => by
      rw [Pattern.extend]
      exact h.mono subset_rfl fun _ => .inl
  | .bind e x => by
      rw [Pattern.extend]
      rintro ρ ⟨μ, hμ, rfl⟩ v hv
      unfold Solution.set at hv
      split at hv
      next heq => exact .inr (List.mem_singleton.mpr heq)
      next => exact .inl (h μ hμ v hv)
  | .group g => by
      rw [Pattern.extend]
      exact h.join ((group_confined hE g G).mono (Set.sep_subset _ _) fun _ => id)
  | .service endpoint _ g => by
      rw [Pattern.extend]
      exact h.join ((group_confined hE g (E.remote endpoint)).mono (Set.sep_subset _ _) fun _ => id)
  | .subselect q => by
      rw [Pattern.extend]
      exact h.join (q.solutions_confined hE G)

/-- The patterns of a group bind what the group has in scope. -/
theorem extendAll_confined (hE : E.CutsOnly) (g : List Pattern) (G : Rdf.Graph)
    {V : Var → Prop} {Ω : Set Solution} (h : Confined V Ω) :
    Confined (fun v => V v ∨ v ∈ groupScope g) (extendAll E G g Ω) :=
  match g with
  | [] => by
      rw [extendAll]
      exact h.mono subset_rfl fun _ => .inl
  | p :: rest => by
      rw [extendAll]
      have hrest := extendAll_confined hE rest G (p.extend_confined hE G h)
      refine hrest.mono subset_rfl fun v hv => ?_
      rw [groupScope, List.mem_append, ← or_assoc]
      exact hv

/-- A group binds what it has in scope and nothing else. -/
theorem group_confined (hE : E.CutsOnly) (g : List Pattern) (G : Rdf.Graph) :
    Confined (· ∈ groupScope g) (extendAll E G g {.empty}) :=
  (extendAll_confined hE g G (V := fun _ => False) .empty).mono subset_rfl fun _ hv =>
    hv.resolve_left id

/-- A query binds the variables that it shows. -/
theorem Select.solutions_confined (hE : E.CutsOnly) (q : Select) (G : Rdf.Graph) :
    Confined (· ∈ q.scope) (q.solutions E G) :=
  match q with
  | ⟨_, none, body, modifiers⟩ => by
      rw [Select.solutions, Sparql.project, Select.scope]
      exact (group_confined hE body G).mono
        ((hE modifiers _).trans (Set.sep_subset _ _)) fun _ => id
  | ⟨_, some vars, body, modifiers⟩ => by
      rw [Select.solutions, Select.scope]
      rintro ρ ⟨μ, hμ, rfl⟩ v hv
      dsimp only at hv
      split at hv
      next hmem =>
        have hbody := group_confined hE body G μ (Set.sep_subset _ _ (hE modifiers _ hμ)) v hv
        exact List.mem_filter.mpr ⟨hbody, decide_eq_true hmem⟩
      next => cases hv

end

/-- A SELECT that projects all that its group has in scope has the solutions of the group. -/
theorem solutions_of (hE : E.CutsOnly) {vars : List Var} {body : List Pattern}
    (h : groupScope body ⊆ vars) (distinct : Bool) (modifiers : Modifiers) (G : Rdf.Graph) :
    (Select.of distinct vars body modifiers).solutions E G =
      E.cut modifiers (groupSolutions E G body) := by
  have hconfined : Confined (· ∈ vars) (E.cut modifiers (groupSolutions E G body)) :=
    (group_confined hE body G).mono ((hE modifiers _).trans (Set.sep_subset _ _)) @h
  unfold Select.of
  split
  · rw [Select.solutions]
    rfl
  · rw [Select.solutions]
    exact hconfined.project

/-! ## Bindings that stay -/

/-- A solution has every term that another one has. -/
def Solution.Extends (μ ν : Solution) : Prop :=
  ∀ v x, ν v = some x → μ v = some x

/-- A variable that is set has its term. -/
theorem Solution.set_self {μ : Solution} {v : Var} (hv : μ v = none) (x : Option Rdf.Term) :
    μ.set v x v = x := by
  simp [set, hv]

theorem Solution.set_of_ne {μ : Solution} {v w : Var} (hw : w ≠ v) (x : Option Rdf.Term) :
    μ.set v x w = μ w := by
  simp [set, hw]

namespace Solution.Extends

variable {μ ν ρ : Solution}

theorem refl (μ : Solution) : μ.Extends μ := fun _ _ h => h

theorem trans (h : ρ.Extends μ) (h' : μ.Extends ν) : ρ.Extends ν :=
  fun v x hx => h v x (h' v x hx)

/-- Merging keeps the terms of the left side. -/
theorem merge_left (μ ν : Solution) : (μ.merge ν).Extends μ := by
  intro v x hx
  simp [merge, hx]

theorem merge_right (h : μ.Compatible ν) : (μ.merge ν).Extends ν := by
  intro v x hx
  cases hμ : μ v with
  | none => simp [merge, hμ, hx]
  | some y => simp [merge, hμ, h v y x hμ hx]

/-- One more variable takes no term back. -/
theorem set (μ : Solution) (v : Var) (x : Option Rdf.Term) : (μ.set v x).Extends μ := by
  intro w y hy
  unfold Solution.set
  split
  next heq =>
    subst heq
    rw [hy]
    rfl
  next => exact hy

end Solution.Extends

/-- A position of a pattern keeps its term. -/
theorem Term.value?_extends {t : Term} {σ : String → Rdf.Term} {μ ν : Solution} {x : Rdf.Term}
    (hextends : μ.Extends ν) (h : t.value? σ ν = some x) : t.value? σ μ = some x := by
  cases t with
  | var v => exact hextends v x h
  | iri | literal | blank => exact h

/-- A triple of a template stands for the same statement under more bindings. -/
theorem Triple.Denotes.of_extends {t : Triple} {σ : String → Rdf.Term} {μ ν : Solution}
    {s : Rdf.Statement} (hextends : μ.Extends ν) (h : t.Denotes σ ν s) : t.Denotes σ μ s := by
  obtain ⟨hsubject, hobject, hpredicate⟩ := h
  refine ⟨Term.value?_extends hextends hsubject, Term.value?_extends hextends hobject, ?_⟩
  cases hp : t.predicate with
  | var v =>
      rw [hp] at hpredicate
      exact hextends v _ hpredicate
  | iri | path =>
      rw [hp] at hpredicate
      exact hpredicate

/-- A pattern takes no binding back. -/
theorem Pattern.extend_extends (p : Pattern) (G : Rdf.Graph) {Ω : Set Solution} {ρ : Solution}
    (hρ : ρ ∈ p.extend E G Ω) : ∃ μ ∈ Ω, ρ.Extends μ := by
  have hjoin : ∀ Ω', ρ ∈ join Ω Ω' → ∃ μ ∈ Ω, ρ.Extends μ := by
    rintro Ω' ⟨μ, hμ, ν, -, -, rfl⟩
    exact ⟨μ, hμ, .merge_left μ ν⟩
  cases p with
  | triples ts =>
      rw [Pattern.extend] at hρ
      exact hjoin _ hρ
  | group g =>
      rw [Pattern.extend] at hρ
      exact hjoin _ hρ
  | service endpoint silent g =>
      rw [Pattern.extend] at hρ
      exact hjoin _ hρ
  | subselect q =>
      rw [Pattern.extend] at hρ
      exact hjoin _ hρ
  | filter e =>
      rw [Pattern.extend] at hρ
      exact ⟨ρ, hρ, .refl ρ⟩
  | optional g =>
      rw [Pattern.extend] at hρ
      obtain ⟨μ, hμ, ⟨ν, -, -, -, rfl⟩ | ⟨-, rfl⟩⟩ := hρ
      · exact ⟨μ, hμ, .merge_left μ ν⟩
      · exact ⟨ρ, hμ, .refl ρ⟩
  | bind e v =>
      rw [Pattern.extend] at hρ
      obtain ⟨μ, hμ, rfl⟩ := hρ
      exact ⟨μ, hμ, .set μ v _⟩

/-- The patterns of a group take no term back. -/
theorem extendAll_extends (g : List Pattern) (G : Rdf.Graph) {Ω : Set Solution} {ρ : Solution}
    (hρ : ρ ∈ extendAll E G g Ω) : ∃ μ ∈ Ω, ρ.Extends μ := by
  induction g generalizing Ω with
  | nil => exact ⟨ρ, hρ, .refl ρ⟩
  | cons p rest ih =>
      rw [extendAll] at hρ
      obtain ⟨μ, hμ, hρμ⟩ := ih hρ
      obtain ⟨ν, hν, hμν⟩ := p.extend_extends G hμ
      exact ⟨ν, hν, hρμ.trans hμν⟩

/-- A solution of a group has all the bindings of a solution of each sub-select in it. -/
theorem extends_of_subselect {g : List Pattern} {q : Select} (hq : .subselect q ∈ g)
    {G : Rdf.Graph} {Ω : Set Solution} {ρ : Solution} (hρ : ρ ∈ extendAll E G g Ω) :
    ∃ ν ∈ q.solutions E G, ρ.Extends ν := by
  induction g generalizing Ω with
  | nil => cases hq
  | cons p rest ih =>
      rw [extendAll] at hρ
      rcases List.mem_cons.mp hq with rfl | hq
      · obtain ⟨μ, hμ, hρμ⟩ := extendAll_extends rest G hρ
        rw [Pattern.extend] at hμ
        obtain ⟨μ', -, ν, hν, hcompatible, rfl⟩ := hμ
        exact ⟨ν, hν, hρμ.trans (.merge_right hcompatible)⟩
      · exact ih hq hρ

/-! ## Bindings that are added -/

/-- A set is made of its single members. -/
theorem mem_iff_exists_singleton {Ω : Set Solution} {ρ : Solution} :
    ρ ∈ Ω ↔ ∃ μ ∈ Ω, ρ ∈ ({μ} : Set Solution) :=
  ⟨fun h => ⟨ρ, h, rfl⟩, fun ⟨_, hμ, heq⟩ => heq ▸ hμ⟩

/-- What a pattern makes of solutions it makes of one of them. -/
theorem Pattern.mem_extend_iff (p : Pattern) (G : Rdf.Graph) {Ω : Set Solution} {ρ : Solution} :
    ρ ∈ p.extend E G Ω ↔ ∃ μ ∈ Ω, ρ ∈ p.extend E G {μ} := by
  have hsingle : ∀ holds : Solution → Prop,
      (∃ μ ∈ Ω, holds μ) ↔ ∃ μ ∈ Ω, ∃ ν ∈ ({μ} : Set Solution), holds ν :=
    fun holds => exists_congr fun μ => and_congr_right fun _ =>
      ⟨fun h => ⟨μ, rfl, h⟩, fun ⟨_, heq, h⟩ => heq ▸ h⟩
  cases p with
  | filter e =>
      simp only [Pattern.extend]
      exact mem_iff_exists_singleton
  | triples | optional | bind | group | service | subselect =>
      simp only [Pattern.extend]
      exact hsingle _

/-- Solutions are extended one by one. -/
theorem mem_extendAll_iff (g : List Pattern) (G : Rdf.Graph) {Ω : Set Solution} {ρ : Solution} :
    ρ ∈ extendAll E G g Ω ↔ ∃ μ ∈ Ω, ρ ∈ extendAll E G g {μ} := by
  induction g generalizing Ω with
  | nil => exact mem_iff_exists_singleton
  | cons p rest ih =>
      simp only [extendAll]
      rw [ih]
      constructor
      · rintro ⟨ν, hν, hρ⟩
        obtain ⟨μ, hμ, hν⟩ := (p.mem_extend_iff G).mp hν
        exact ⟨μ, hμ, ih.mpr ⟨ν, hν, hρ⟩⟩
      · rintro ⟨μ, hμ, hρ⟩
        obtain ⟨ν, hν, hρ⟩ := ih.mp hρ
        exact ⟨ν, (p.mem_extend_iff G).mpr ⟨μ, hμ, hν⟩, hρ⟩

/-- A group leaves all that is outside of its scope as it is. -/
theorem extendAll_within (hE : E.CutsOnly) (g : List Pattern) (G : Rdf.Graph) {Ω : Set Solution}
    {ρ : Solution} (hρ : ρ ∈ extendAll E G g Ω) :
    ∃ μ ∈ Ω, ρ.Extends μ ∧ ∀ v, v ∉ groupScope g → ρ v = μ v := by
  obtain ⟨μ, hμ, hρ⟩ := (mem_extendAll_iff g G).mp hρ
  obtain ⟨μ, rfl, hextends⟩ := extendAll_extends g G hρ
  refine ⟨μ, hμ, hextends, fun v hv => ?_⟩
  have hstart : Confined (fun v => (μ v).isSome) {μ} := by
    rintro ν rfl v hv
    exact hv
  cases hx : μ v with
  | some x => exact hextends v x hx
  | none =>
      by_contra hne
      rcases extendAll_confined hE g G hstart ρ hρ v (Option.isSome_iff_ne_none.mpr hne) with h | h
      · rw [hx] at h
        cases h
      · exact hv h

/-- A solution of a group has the bindings of a solution of a sub-select in it, and no others but
for what stands beside the sub-select. -/
theorem agrees_with_subselect (hE : E.CutsOnly) {before after : List Pattern} {q : Select}
    {G : Rdf.Graph} {ρ : Solution}
    (hρ : ρ ∈ extendAll E G (before ++ .subselect q :: after) {.empty}) :
    ∃ ν ∈ q.solutions E G, ρ.Extends ν ∧
      ∀ v, v ∉ groupScope (before ++ after) → ρ v = ν v := by
  rw [extendAll_append, extendAll] at hρ
  obtain ⟨μ, hμ, hextends, hwithin⟩ := extendAll_within hE after G hρ
  rw [Pattern.extend] at hμ
  obtain ⟨μ, hμ, ν, hν, hcompatible, rfl⟩ := hμ
  refine ⟨ν, hν, hextends.trans (.merge_right hcompatible), fun v hv => ?_⟩
  rw [groupScope_append, List.mem_append, not_or] at hv
  have hopen : μ v = none := by
    by_contra hne
    exact hv.1 (group_confined hE before G μ hμ v (Option.isSome_iff_ne_none.mpr hne))
  rw [hwithin v hv.2, Solution.merge, hopen, Option.none_or]

end ObjectGraph.Sparql
