import ObjectGraph.Proofs.Sparql.Scope

/-!
# Blocks of triples

Under a solution a block of triples is matched by what completes the solution: one that has
all its terms, gives terms to the variables of the block, adds none besides and turns each
triple into a match (`Completes`, `mem_join_block`).

So a test for existence over a block asks whether its solution can be completed
(`exist_isTrue_iff`), and the answer depends on the variables of the block only
(`exist_value_congr`).
-/

namespace ObjectGraph

/-- A statement with the predicate leads from one term to the other. -/
def Rdf.Graph.Links (G : Rdf.Graph) (p : String) (x y : Rdf.Term) : Prop :=
  ∃ s ∈ G, s.subject = x ∧ s.predicate = p ∧ s.object = y

namespace Sparql

variable {E : Engine} {G : Rdf.Graph} {μ ν : Solution}

/-- The variables of a triple are those in its positions. -/
theorem Triple.mem_vars {t : Triple} {v : Var} :
    v ∈ t.vars ↔ t.subject = .var v ∨ t.predicate = .var v ∨ t.object = .var v := by
  have hends : ∀ t : Term, v ∈ t.asVar?.toList ↔ t = .var v := by
    intro t
    cases t <;> simp [Term.asVar?, eq_comm]
  obtain ⟨subject, predicate, object⟩ := t
  cases predicate <;> simp [Triple.vars, hends, eq_comm]

section

variable {σ : String → Rdf.Term} {subject object : Term} {p : String}

/-- A triple with an IRI matches along a link from its subject to its object. -/
theorem Triple.matches_iri_iff : (⟨subject, .iri p, object⟩ : Triple).Matches G σ μ ↔
    ∃ x y, subject.value? σ μ = some x ∧ object.value? σ μ = some y ∧ G.Links p x y := by
  constructor
  · rintro ⟨s, hs, hsubject, hobject, hp⟩
    exact ⟨s.subject, s.object, hsubject, hobject, s, hs, rfl, hp, rfl⟩
  · rintro ⟨_, _, hsubject, hobject, s, hs, rfl, hp, rfl⟩
    exact ⟨s, hs, hsubject, hobject, hp⟩

theorem Triple.matches_inverse_iff :
    (⟨subject, (Path.inverse (.iri p)).toPredicate, object⟩ : Triple).Matches G σ μ ↔
      ∃ x y, subject.value? σ μ = some x ∧ object.value? σ μ = some y ∧ G.Links p y x :=
  Iff.rfl

/-- A triple with any number of steps matches from a known node to itself and along chains of
links. -/
theorem Triple.matches_zeroOrMore_iff :
    (⟨subject, (Path.zeroOrMore (.iri p)).toPredicate, object⟩ : Triple).Matches G σ μ ↔
      ∃ x y, subject.value? σ μ = some x ∧ object.value? σ μ = some y ∧
        ((x = y ∧ x ∈ G.nodes ∪
            constants ⟨subject, (Path.zeroOrMore (.iri p)).toPredicate, object⟩ σ) ∨
          Relation.TransGen (G.Links p) x y) :=
  Iff.rfl

end

/-! ## Where solutions agree -/

/-- A position has the same term in solutions that agree on its variable. -/
theorem Term.value?_congr {t : Term} (h : ∀ v, t = .var v → μ v = ν v) (σ : String → Rdf.Term) :
    t.value? σ μ = t.value? σ ν := by
  cases t with
  | var v => exact h v rfl
  | iri | literal | blank => rfl

/-- A triple is matched alike by solutions that agree on its variables. -/
theorem Triple.Matches.of_agree {t : Triple} {σ : String → Rdf.Term}
    (h : ∀ v ∈ t.vars, μ v = ν v) (hmatch : t.Matches G σ μ) : t.Matches G σ ν := by
  have hsubject : t.subject.value? σ μ = t.subject.value? σ ν :=
    Term.value?_congr (fun v hv => h v (mem_vars.mpr (.inl hv))) σ
  have hobject : t.object.value? σ μ = t.object.value? σ ν :=
    Term.value?_congr (fun v hv => h v (mem_vars.mpr (.inr (.inr hv)))) σ
  unfold Matches Denotes at *
  cases hp : t.predicate with
  | var v =>
      have hpredicate := h v (mem_vars.mpr (.inr (.inl hp)))
      simpa only [hp, hsubject, hobject, hpredicate] using hmatch
  | iri | path => simpa only [hp, hsubject, hobject] using hmatch

/-! ## Completions -/

/-- A solution has the terms of another one, and besides terms for the variables of a block
under which the block matches. -/
structure Completes (G : Rdf.Graph) (ts : List Triple) (μ ν : Solution) : Prop where
  keeps : ν.Extends μ
  within : ∀ v, v ∉ ts.flatMap Triple.vars → ν v = μ v
  binds : ∀ v ∈ ts.flatMap Triple.vars, (ν v).isSome
  matched : ∃ σ, ∀ t ∈ ts, t.Matches G σ ν

/-- What a block makes of a solution are its completions. -/
theorem mem_join_block {ts : List Triple} :
    ν ∈ join {μ} (blockSolutions G ts) ↔ Completes G ts μ ν := by
  constructor
  · rintro ⟨μ, rfl, β, ⟨hdomain, σ, hmatch⟩, hcompatible, rfl⟩
    have hβ : ∀ v ∈ ts.flatMap Triple.vars, β v = (μ.merge β) v := by
      intro v hv
      obtain ⟨x, hx⟩ := Option.isSome_iff_exists.mp ((hdomain v).mpr hv)
      rw [hx, Solution.Extends.merge_right hcompatible v x hx]
    refine ⟨.merge_left μ β, fun v hv => ?_, fun v hv => ?_, σ, fun t ht => ?_⟩
    · have hnone : β v = none := by
        rw [← Option.not_isSome_iff_eq_none, hdomain]
        exact hv
      simp [Solution.merge, hnone]
    · rw [← hβ v hv]
      exact (hdomain v).mpr hv
    · exact (hmatch t ht).of_agree fun v hv => hβ v (List.mem_flatMap.mpr ⟨t, ht, hv⟩)
  · rintro ⟨hkeeps, hwithin, hbinds, σ, hmatch⟩
    let β : Solution := fun v => if v ∈ ts.flatMap Triple.vars then ν v else none
    have hβ : ∀ v ∈ ts.flatMap Triple.vars, ν v = β v := fun v hv => (if_pos hv).symm
    have hnone : ∀ v, v ∉ ts.flatMap Triple.vars → β v = none := fun v hv => if_neg hv
    refine ⟨μ, rfl, β, ⟨fun v => ?_, σ, fun t ht => ?_⟩, ?_, ?_⟩
    · by_cases hv : v ∈ ts.flatMap Triple.vars
      · simp only [← hβ v hv, hbinds v hv, hv]
      · simp only [hnone v hv, hv, Option.isSome_none, Bool.false_eq_true]
    · exact (hmatch t ht).of_agree fun v hv => hβ v (List.mem_flatMap.mpr ⟨t, ht, hv⟩)
    · intro v a b ha hb
      by_cases hv : v ∈ ts.flatMap Triple.vars
      · rw [← hβ v hv, hkeeps v a ha] at hb
        exact Option.some.inj hb
      · rw [hnone v hv] at hb
        cases hb
    · funext v
      by_cases hv : v ∈ ts.flatMap Triple.vars
      · rw [Solution.merge, ← hβ v hv]
        cases hμ : μ v with
        | none => rfl
        | some a => exact hkeeps v a hμ
      · rw [Solution.merge, hnone v hv, hwithin v hv, Option.or_none]

/-- The solutions of a block complete the empty one. -/
theorem mem_blockSolutions {ts : List Triple} :
    μ ∈ blockSolutions G ts ↔ Completes G ts .empty μ := by
  rw [← mem_join_block, join_empty]

/-- A completion of one solution completes every other one that agrees on the block. -/
theorem Completes.of_agree {ts : List Triple} {ρ : Solution} (h : Completes G ts μ ρ)
    (hagree : ∀ v ∈ ts.flatMap Triple.vars, μ v = ν v) : ∃ ρ, Completes G ts ν ρ := by
  let ρ' : Solution := fun v => if v ∈ ts.flatMap Triple.vars then ρ v else ν v
  have hin : ∀ v ∈ ts.flatMap Triple.vars, ρ v = ρ' v := fun v hv => (if_pos hv).symm
  have hout : ∀ v, v ∉ ts.flatMap Triple.vars → ρ' v = ν v := fun v hv => if_neg hv
  obtain ⟨σ, hmatch⟩ := h.matched
  refine ⟨ρ', fun v x hx => ?_, hout, fun v hv => hin v hv ▸ h.binds v hv, σ, fun t ht => ?_⟩
  · by_cases hv : v ∈ ts.flatMap Triple.vars
    · rw [← hin v hv]
      exact h.keeps v x ((hagree v hv).trans hx)
    · exact (hout v hv).trans hx
  · exact (hmatch t ht).of_agree fun v hv => hin v (List.mem_flatMap.mpr ⟨t, ht, hv⟩)

/-- A link between two variables is completed by one between the terms that they have. -/
theorem exists_completes_link {x y : Var} (hne : x ≠ y) {p : String} :
    (∃ ν, Completes G [⟨.var x, .iri p, .var y⟩] μ ν) ↔
      ∃ a b, G.Links p a b ∧ (∀ z, μ x = some z → z = a) ∧ ∀ z, μ y = some z → z = b := by
  constructor
  · rintro ⟨ν, hkeeps, -, -, σ, hmatch⟩
    obtain ⟨a, b, ha, hb, hlinks⟩ := Triple.matches_iri_iff.mp (hmatch _ List.mem_cons_self)
    exact ⟨a, b, hlinks, fun z hz => Option.some.inj ((hkeeps x z hz).symm.trans ha),
      fun z hz => Option.some.inj ((hkeeps y z hz).symm.trans hb)⟩
  · rintro ⟨a, b, hlinks, ha, hb⟩
    let ν : Solution := fun v => if v = x then some a else if v = y then some b else μ v
    have hx : ν x = some a := if_pos rfl
    have hy : ν y = some b := (if_neg hne.symm).trans (if_pos rfl)
    have hvars : ∀ v, v ∈ [(⟨.var x, .iri p, .var y⟩ : Triple)].flatMap Triple.vars ↔
        v = x ∨ v = y := by
      simp [Triple.mem_vars, eq_comm]
    refine ⟨ν, fun v z hz => ?_, fun v hv => ?_, fun v hv => ?_, fun _ => a, fun t ht => ?_⟩
    · by_cases hvx : v = x
      · rw [hvx, hx, ha z (hvx ▸ hz)]
      by_cases hvy : v = y
      · rw [hvy, hy, hb z (hvy ▸ hz)]
      exact (if_neg hvx).trans ((if_neg hvy).trans hz)
    · obtain ⟨hvx, hvy⟩ := not_or.mp (mt (hvars v).mpr hv)
      exact (if_neg hvx).trans (if_neg hvy)
    · rcases (hvars v).mp hv with rfl | rfl
      · rw [hx]
        rfl
      · rw [hy]
        rfl
    · obtain rfl := List.mem_singleton.mp ht
      exact Triple.matches_iri_iff.mpr ⟨a, b, hx, hy, hlinks⟩

/-- A block among the patterns of a group gives terms to all its variables. -/
theorem isSome_of_block {ts : List Triple} {g : List Pattern} (hblock : .triples ts ∈ g)
    {Ω : Set Solution} (hμ : μ ∈ extendAll E G g Ω) {v : Var} (hv : v ∈ ts.flatMap Triple.vars) :
    (μ v).isSome := by
  obtain ⟨before, after, rfl⟩ := List.append_of_mem hblock
  rw [extendAll_append, extendAll] at hμ
  obtain ⟨ρ, hρ, hextends⟩ := extendAll_extends after G hμ
  rw [Pattern.extend] at hρ
  obtain ⟨μ', -, β, hβ, hcompatible, rfl⟩ := hρ
  obtain ⟨x, hx⟩ := Option.isSome_iff_exists.mp ((hβ.1 v).mpr hv)
  rw [hextends v x (Solution.Extends.merge_right hcompatible v x hx)]
  rfl

/-- A value that is assigned behind a block. -/
theorem set_mem_groupSolutions {ts : List Triple} (hμ : μ ∈ blockSolutions G ts) (v : Var)
    {e : Expression} {x : Option Rdf.Term} (hvalue : e.value? E G μ = x) :
    μ.set v x ∈ groupSolutions E G [.triples ts, .bind e v] := by
  refine ⟨?_, trivial, trivial, trivial⟩
  simp only [extendAll, Pattern.extend, join_empty]
  exact ⟨μ, hμ, by rw [hvalue]⟩

namespace Expression

/-- What a group of one block makes of a solution. -/
theorem exists_block_iff {ts : List Triple} :
    (∃ ν ∈ extendAll E G [.triples ts] {μ}, testAll E G ν [.triples ts]) ↔
      ∃ ν, Completes G ts μ ν := by
  simp only [extendAll, Pattern.extend, testAll, Pattern.test, mem_join_block, and_true]

/-- A test for existence over a block has the value whether the block can be completed. -/
theorem exist_value {ts : List Triple} {b : Bool} (h : (∃ ν, Completes G ts μ ν) ↔ b = true) :
    (exist [.triples ts]).value? E G μ = some (.ofBool b) := by
  simp only [value?, exists_block_iff, h, Bool.decide_eq_true]

/-- Whether a block has a solution depends on the variables in it alone. -/
theorem exists_block_congr {ts : List Triple} (h : ∀ v ∈ ts.flatMap Triple.vars, μ v = ν v) :
    (∃ ρ ∈ extendAll E G [.triples ts] {μ}, testAll E G ρ [.triples ts]) ↔
      ∃ ρ ∈ extendAll E G [.triples ts] {ν}, testAll E G ρ [.triples ts] := by
  rw [exists_block_iff, exists_block_iff]
  exact ⟨fun ⟨_, hρ⟩ => hρ.of_agree h, fun ⟨_, hρ⟩ => hρ.of_agree fun v hv => (h v hv).symm⟩

/-- **A test for existence looks at the variables of its block only.** -/
theorem exist_value_congr {ts : List Triple} (h : ∀ v ∈ ts.flatMap Triple.vars, μ v = ν v) :
    (exist [.triples ts]).value? E G μ = (exist [.triples ts]).value? E G ν := by
  simp only [value?]
  exact congrArg (some ∘ Rdf.Term.ofBool) (decide_eq_decide.mpr (exists_block_congr h))

/-- A test that a block has no solution depends on the variables in it alone. -/
theorem notExist_value_congr {ts : List Triple} (h : ∀ v ∈ ts.flatMap Triple.vars, μ v = ν v) :
    (notExist [.triples ts]).value? E G μ = (notExist [.triples ts]).value? E G ν := by
  simp only [value?]
  exact congrArg (some ∘ Rdf.Term.ofBool)
    (decide_eq_decide.mpr (not_congr (exists_block_congr h)))

/-- What a group of one block and one filter makes of a solution. -/
theorem exists_filteredBlock_iff {ts : List Triple} {g : Expression} :
    (∃ ν ∈ extendAll E G [.triples ts, .filter g] {μ}, testAll E G ν [.triples ts, .filter g]) ↔
      ∃ ν, Completes G ts μ ν ∧ g.IsTrue E G ν := by
  simp only [extendAll, Pattern.extend, testAll, Pattern.test, mem_join_block, true_and, and_true,
    IsTrue]

/-- **A test for existence asks for a completion.** -/
theorem exist_isTrue_iff (htruth : ∀ b, E.truth (.ofBool b) = some b) {ts : List Triple}
    {g : Expression} :
    (exist [.triples ts, .filter g]).IsTrue E G μ ↔
      ∃ ν, Completes G ts μ ν ∧ g.IsTrue E G ν := by
  rw [IsTrue, value?, Option.bind_some, htruth, Option.some.injEq]
  simp only [decide_eq_true_eq, exists_filteredBlock_iff]

/-- A test that a block has no solution with a filter is true if the filter holds of no
completion. -/
theorem notExist_isTrue_iff (htruth : ∀ b, E.truth (.ofBool b) = some b) {ts : List Triple}
    {g : Expression} :
    (notExist [.triples ts, .filter g]).IsTrue E G μ ↔
      ∀ ν, Completes G ts μ ν → ¬ g.IsTrue E G ν := by
  rw [IsTrue, value?, Option.bind_some, htruth, Option.some.injEq]
  simp only [decide_eq_true_eq, exists_filteredBlock_iff, not_exists, not_and]

end Expression

end Sparql

end ObjectGraph
