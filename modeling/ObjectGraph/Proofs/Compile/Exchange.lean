import ObjectGraph.Proofs.Compile.Coverage
import ObjectGraph.Proofs.Compile.Draft
import ObjectGraph.Proofs.Compile.SafeUpdates
import ObjectGraph.Proofs.Sparql.Blocks

/-!
# Solutions with a value exchanged

A group that asks for the values of some properties of a variable subject, each in a triple
of its own that may be missing, has every combination of values as a solution.  So in a
solution for some resource, any value of a property may take the place of the one that is
there (`Exchanges.run`).

What is left of them after the filters is a question of what each filter looks at.  One that
compares looks at the variable of its key only: on another variable with the same term it has
the same value (`Filter.related_value`).
-/

namespace ObjectGraph

open Json (Value)
open Sparql (Var Term Triple Expression Pattern Solution Engine)

/-! ## What a filter looks at -/

namespace Filter

variable {E : Engine} {G : Rdf.Graph} {μ ν : Solution} {x y : Var} {ns : Namespaces} {kind : Kind}

/-- An operand is the same in all solutions. -/
theorem operand_value (v : Value) :
    (operand ns kind v).value? E G μ = (operand ns kind v).value? E G ν := by
  unfold operand
  obtain ⟨i, h⟩ | ⟨l, h⟩ := Encode.value_cases ns kind v <;>
    rw [h] <;> simp only [Expression.ofTerm, Expression.value?]

/-- Comparisons of variables with one value come to the same. -/
theorem comparison_value (h : μ x = ν y) (op : Sparql.BinaryOp) (v : Value) :
    (comparison op x ns kind v).value? E G μ = (comparison op y ns kind v).value? E G ν := by
  refine Expression.binary_value op ?_ (operand_value v)
  simpa only [Expression.value?] using h

/-- Text tests of variables with one value come to the same. -/
theorem textTest_value (h : μ x = ν y) {f : Sparql.Builtin} (hf : f ≠ .bound)
    (args : List Value) :
    (textTest f x args).value? E G μ = (textTest f y args).value? E G ν := by
  have hargs : Sparql.argumentValues E G μ (args.map patternText) =
      Sparql.argumentValues E G ν (args.map patternText) := by
    induction args with
    | nil => simp only [List.map_nil, Sparql.argumentValues]
    | cons v rest ih =>
        have hv : (patternText v).value? E G μ = (patternText v).value? E G ν := by
          cases v <;> simp only [patternText, Expression.value?]
        simp only [List.map_cons, Sparql.argumentValues, hv, ih]
  cases f with
  | bound => exact (hf rfl).elim
  | _ => simp only [textTest, Expression.value?, Sparql.argumentValues, h, hargs]

/-- **A comparison looks at its variable only.** -/
theorem related_value (h : μ x = ν y) (relation : Relation) (values : List Value) :
    (related x ns kind relation values).map (·.value? E G μ) =
      (related y ns kind relation values).map (·.value? E G ν) := by
  have htext : ∀ f : Sparql.Builtin, f ≠ .bound → ∀ args,
      (textTest f x args).value? E G μ = (textTest f y args).value? E G ν :=
    fun _ hf args => textTest_value h hf args
  have hcompared : ∀ op v, (comparison op x ns kind v).value? E G μ =
      (comparison op y ns kind v).value? E G ν := fun op v => comparison_value h op v
  cases relation with
  | equal | any => exact Expression.fold?_value _ (hcompared .eq) values
  | notEqual | notAny => exact Expression.fold?_value _ (hcompared .ne) values
  | after => cases values <;> simp [related, hcompared]
  | before => cases values <;> simp [related, hcompared]
  | between =>
      rcases values with _ | ⟨low, _ | ⟨high, rest⟩⟩
      · rfl
      · rfl
      · exact congrArg some (Expression.binary_value .and (hcompared .ge low) (hcompared .lt high))
  | contains => exact Expression.fold?_value _ (fun v => htext .contains (by decide) [v]) values
  | notContains =>
      refine Expression.fold?_value _ (fun v => ?_) values
      simp only [Expression.value?, htext .contains (by decide) [v]]
  | startWith => exact Expression.fold?_value _ (fun v => htext .strStarts (by decide) [v]) values
  | endWith => exact Expression.fold?_value _ (fun v => htext .strEnds (by decide) [v]) values
  | regEx =>
      cases values with
      | nil => rfl
      | cons v rest => exact congrArg some (htext .regex (by decide) _)
  | exist | notExist => rfl

/-- So do the tests of equality. -/
theorem equality_value (h : μ x = ν y) (v : Value) :
    (equality x ns kind v).map (·.value? E G μ) = (equality y ns kind v).map (·.value? E G ν) := by
  cases v with
  | arr values => exact related_value h .any values
  | _ => exact congrArg some (comparison_value h .eq _)

end Filter

/-- The filter by which a condition compares a variable, if it does. -/
def Condition.filter? (ns : Namespaces) (kind : Kind) (x : Var) : Condition → Option Expression
  | .value v => Filter.equality x ns kind v
  | .related relation values =>
    if relation.isExistence then none else Filter.related x ns kind relation values
  | .shared _ | .computed _ _ => none

/-- A condition finds the same terms whatever its variable is. -/
theorem Condition.filter?_value {E : Engine} {G : Rdf.Graph} {μ ν : Solution} {x y : Var}
    (h : μ x = ν y) (ns : Namespaces) (kind : Kind) (c : Condition) :
    (c.filter? ns kind x).map (·.value? E G μ) = (c.filter? ns kind y).map (·.value? E G ν) := by
  cases c with
  | value v => exact Filter.equality_value h v
  | related relation values =>
      simp only [filter?]
      split
      · rfl
      · exact Filter.related_value h relation values
  | shared | computed => rfl

/-- A test for existence looks at its subject and its witness only. -/
theorem Mapping.test_value {E : Engine} {G : Rdf.Graph} {μ ν : Solution} {s w : Var}
    (hs : μ s = ν s) (hw : μ w = ν w) (m : Mapping) (relation : Relation) :
    (m.test relation (.var s) w).value? E G μ = (m.test relation (.var s) w).value? E G ν := by
  have hagree : ∀ v ∈ [m.triple (.var s) (.var w)].flatMap Triple.vars, μ v = ν v := by
    intro v hv
    rw [List.flatMap_singleton] at hv
    rcases Mapping.mem_vars_triple.mp hv with heq | heq
    · exact Term.var.inj heq ▸ hs
    · exact Term.var.inj heq ▸ hw
  unfold test
  dsimp only
  split
  · exact Expression.exist_value_congr hagree
  · exact Expression.notExist_value_congr hagree

/-! ## Values exchanged -/

/-- The two ends of a statement of a property, as a solution. -/
def Mapping.ends (m : Mapping) (s x : Var) (st : Rdf.Statement) : Solution :=
  fun v => if v = x then some (m.other st) else if v = s then some (m.owner st) else none

/-- The solutions of the triple of a property are the ends of its statements. -/
theorem Mapping.mem_blockSolutions {G : Rdf.Graph} {m : Mapping} {s x : Var} (hx : x ≠ s)
    {ν : Solution} :
    ν ∈ Sparql.blockSolutions G [m.triple (.var s) (.var x)] ↔
      ∃ st ∈ G, st.predicate = m.iri ∧ ν = m.ends s x st := by
  have hpredicate : (m.triple (.var s) (.var x)).predicate = .iri m.iri := by
    unfold triple
    split <;> rfl
  have hmatches : ∀ σ, (m.triple (.var s) (.var x)).Matches G σ ν ↔
      ∃ st ∈ G, st.predicate = m.iri ∧ ν s = some (m.owner st) ∧ ν x = some (m.other st) := by
    intro σ
    unfold Triple.Matches
    rw [hpredicate]
    exact exists_congr fun st => and_congr_right fun _ => denotes_triple
  have hvars : ∀ v, v ∈ [m.triple (.var s) (.var x)].flatMap Triple.vars ↔ v = s ∨ v = x := by
    intro v
    rw [List.flatMap_singleton, mem_vars_triple, Term.var.injEq, Term.var.injEq, eq_comm,
      eq_comm (a := x)]
  constructor
  · rintro ⟨hdomain, σ, hν⟩
    obtain ⟨st, hst, hiri, howner, hother⟩ := (hmatches σ).mp (hν _ List.mem_cons_self)
    refine ⟨st, hst, hiri, funext fun v => ?_⟩
    unfold ends
    split
    next hv => rw [hv, hother]
    next hv =>
      split
      next hv' => rw [hv', howner]
      next hv' =>
        have hfree := (hdomain v).not.mpr fun h => ((hvars v).mp h).elim hv' hv
        simpa using hfree
  · rintro ⟨st, hst, hiri, rfl⟩
    refine ⟨fun v => ?_, fun _ => .blank "", fun t ht => ?_⟩
    · rw [hvars]
      unfold ends
      split
      next hv => simp [hv]
      next hv =>
        split
        next hv' => simp [hv']
        next hv' => simp [hv, hv']
    · obtain rfl := List.mem_singleton.mp ht
      refine (hmatches _).mpr ⟨st, hst, hiri, ?_, ?_⟩
      · simp [ends, Ne.symm hx]
      · simp [ends]

namespace Mapping

variable {m : Mapping} {s x v : Var} {μ : Solution} {st old : Rdf.Statement}

/-- The ends of a statement are bound to the two variables of its triple. -/
theorem eq_of_ends (h : (m.ends s x st v).isSome) : v = s ∨ v = x := by
  unfold ends at h
  split at h
  next hv => exact .inr hv
  next =>
    split at h
    next hv => exact .inl hv
    next => cases h

/-- The ends of a statement agree with a solution that has its owner, if it has a subject. -/
theorem compatible_ends (hx : x ≠ s) (hμ : μ x = none) :
    μ.Compatible (m.ends s x st) ↔ ∀ r, μ s = some r → r = m.owner st := by
  constructor
  · intro hcompatible r hr
    exact hcompatible s r (m.owner st) hr (by simp [ends, Ne.symm hx])
  · intro howner v a b ha hb
    rcases eq_of_ends (by rw [hb]; rfl) with rfl | rfl
    · have hend : m.ends v x st v = some (m.owner st) := by simp [ends, Ne.symm hx]
      exact (howner a ha).trans (Option.some.inj (hend.symm.trans hb))
    · rw [hμ] at ha
      cases ha

/-- A solution without a subject takes it from the ends of a statement. -/
theorem merge_ends_owner (hx : x ≠ s) (hs : μ s = none) :
    μ.merge (m.ends s x old) s = some (m.owner old) := by
  simp [Solution.merge, ends, hs, Ne.symm hx]

/-- Another value in place of the one of a statement is that of another statement. -/
theorem update_merge_ends (hμ : μ x = none) (howner : μ s = none → m.owner old = m.owner st) :
    Function.update (μ.merge (m.ends s x old)) x (some (m.other st)) =
      μ.merge (m.ends s x st) := by
  funext v
  by_cases hvx : v = x
  · subst hvx
    simp [Solution.merge, ends, hμ]
  · rw [Function.update_of_ne hvx]
    by_cases hvs : v = s
    · subst hvs
      cases hs : μ v with
      | none => simp [Solution.merge, ends, hs, hvx, howner hs]
      | some r => simp [Solution.merge, hs]
    · simp [Solution.merge, ends, hvx, hvs]

end Mapping

/-- A value that is exchanged before a merge may be exchanged after it. -/
theorem Sparql.Solution.update_merge (μ ν : Solution) (x : Var) (y : Rdf.Term) :
    Solution.merge (Function.update μ x (some y)) ν = Function.update (μ.merge ν) x (some y) := by
  funext v
  by_cases hv : v = x
  · subst hv
    simp [Solution.merge]
  · simp [Solution.merge, hv]

/-- Solutions for a resource stay solutions if a value of a property takes the place of
another one. -/
structure Exchanges (G : Rdf.Graph) (s : Var) (done : List (Mapping × Var)) (Ω : Set Solution) :
    Prop where
  swap : ∀ μ ∈ Ω, ∀ r, μ s = some r → ∀ p ∈ done, ∀ st ∈ G, p.1.Touches r st →
    Function.update μ p.2 (some (p.1.other st)) ∈ Ω
  /-- As long as the subject is open, no property has had any statement. -/
  unbound : ∀ μ ∈ Ω, μ s = none → ∀ p ∈ done, ∀ st ∈ G, st.predicate ≠ p.1.iri
  free : ∀ μ ∈ Ω, ∀ v, (μ v).isSome → v = s ∨ v ∈ done.map Prod.snd

namespace Exchanges

variable {E : Engine} {G : Rdf.Graph} {s : Var} {done : List (Mapping × Var)} {Ω : Set Solution}

/-- Where only the subject is bound there is nothing to exchange. -/
theorem start (h : ∀ μ ∈ Ω, ∀ v, (μ v).isSome → v = s) : Exchanges G s [] Ω where
  swap _ _ _ _ _ hp := (List.not_mem_nil hp).elim
  unbound _ _ _ _ hp := (List.not_mem_nil hp).elim
  free μ hμ v hv := .inl (h μ hμ v hv)

/-! ### One more property -/

section Optional

variable {m : Mapping} {x : Var} {ρ : Solution} {r : Rdf.Term} {st : Rdf.Statement}

/-- Where the triple of a property may be missing a solution has the ends of a statement that
agrees with it, or stays as it is if there is none. -/
theorem mem_optional_iff (hx : x ≠ s) :
    ρ ∈ (Pattern.optionalTriple (m.triple (.var s) (.var x))).extend E G Ω ↔
      ∃ μ ∈ Ω,
        (∃ old ∈ G, old.predicate = m.iri ∧ μ.Compatible (m.ends s x old) ∧
          ρ = μ.merge (m.ends s x old)) ∨
        (∀ old ∈ G, old.predicate = m.iri → ¬ μ.Compatible (m.ends s x old)) ∧ ρ = μ := by
  rw [Sparql.extend_optionalTriple]
  refine exists_congr fun μ => and_congr_right fun _ => or_congr ?_ (and_congr_left fun _ => ?_)
  · constructor
    · rintro ⟨ν, hν, hcompatible, -, rfl⟩
      obtain ⟨old, hold, hiri, rfl⟩ := (Mapping.mem_blockSolutions hx).mp hν
      exact ⟨old, hold, hiri, hcompatible, rfl⟩
    · rintro ⟨old, hold, hiri, hcompatible, rfl⟩
      exact ⟨_, (Mapping.mem_blockSolutions hx).mpr ⟨old, hold, hiri, rfl⟩, hcompatible, trivial,
        rfl⟩
  · constructor
    · intro hnone old hold hiri hcompatible
      exact hnone _ ((Mapping.mem_blockSolutions hx).mpr ⟨old, hold, hiri, rfl⟩) hcompatible trivial
    · rintro hnone ν hν hcompatible -
      obtain ⟨old, hold, hiri, rfl⟩ := (Mapping.mem_blockSolutions hx).mp hν
      exact hnone old hold hiri hcompatible

/-- The variable of a new property is free. -/
theorem eq_none_of_new (h : Exchanges G s done Ω) (hx : x ≠ s) (hnew : x ∉ done.map Prod.snd)
    {μ : Solution} (hμ : μ ∈ Ω) : μ x = none := by
  by_contra hsome
  exact (h.free μ hμ x (Option.isSome_iff_ne_none.mpr hsome)).elim hx hnew

/-- A value of an old property may be exchanged beside the new one. -/
theorem optional_swap_old (h : Exchanges G s done Ω) (hx : x ≠ s)
    (hnew : x ∉ done.map Prod.snd) (hdone : s ∉ done.map Prod.snd)
    (hρ : ρ ∈ (Pattern.optionalTriple (m.triple (.var s) (.var x))).extend E G Ω)
    (hr : ρ s = some r) {p : Mapping × Var} (hp : p ∈ done) (hst : st ∈ G)
    (htouches : p.1.Touches r st) :
    Function.update ρ p.2 (some (p.1.other st)) ∈
      (Pattern.optionalTriple (m.triple (.var s) (.var x))).extend E G Ω := by
  obtain ⟨μ, hμ, hmade⟩ := (mem_optional_iff hx).mp hρ
  have hμx : μ x = none := h.eq_none_of_new hx hnew hμ
  have hps : p.2 ≠ s := fun heq => hdone (heq ▸ List.mem_map_of_mem hp)
  have hpx : p.2 ≠ x := fun heq => hnew (heq ▸ List.mem_map_of_mem hp)
  -- the old property has a statement, so the subject was not open
  have hbound : μ s = some r := by
    cases hs : μ s with
    | none => exact (h.unbound μ hμ hs p hp st hst htouches.1).elim
    | some r' =>
        rcases hmade with ⟨old, -, -, -, rfl⟩ | ⟨-, rfl⟩
        · simpa [Solution.merge, hs] using hr
        · exact hs.symm.trans hr
  let μ' : Solution := Function.update μ p.2 (some (p.1.other st))
  have hsame : μ' s = μ s := Function.update_of_ne (Ne.symm hps) _ _
  have hopen : μ' x = none := (Function.update_of_ne (Ne.symm hpx) _ _).trans hμx
  have hkept : ∀ old, μ'.Compatible (m.ends s x old) ↔ μ.Compatible (m.ends s x old) := by
    intro old
    rw [Mapping.compatible_ends hx hopen, Mapping.compatible_ends hx hμx, hsame]
  refine (mem_optional_iff hx).mpr ⟨μ', h.swap μ hμ r hbound p hp st hst htouches, ?_⟩
  rcases hmade with ⟨old, hold, hiri, hcompatible, rfl⟩ | ⟨hnone, rfl⟩
  · exact .inl ⟨old, hold, hiri, (hkept old).mpr hcompatible,
      (Solution.update_merge μ _ p.2 _).symm⟩
  · exact .inr ⟨fun old hold hiri => (hkept old).not.mpr (hnone old hold hiri), rfl⟩

/-- The value of the new property may be exchanged, as other statements agree as well. -/
theorem optional_swap_new (h : Exchanges G s done Ω) (hx : x ≠ s)
    (hnew : x ∉ done.map Prod.snd)
    (hρ : ρ ∈ (Pattern.optionalTriple (m.triple (.var s) (.var x))).extend E G Ω)
    (hr : ρ s = some r) (hst : st ∈ G) (htouches : m.Touches r st) :
    Function.update ρ x (some (m.other st)) ∈
      (Pattern.optionalTriple (m.triple (.var s) (.var x))).extend E G Ω := by
  obtain ⟨μ, hμ, hmade⟩ := (mem_optional_iff hx).mp hρ
  have hμx : μ x = none := h.eq_none_of_new hx hnew hμ
  have hagree : μ.Compatible (m.ends s x st) := by
    rw [Mapping.compatible_ends hx hμx]
    intro r' hr'
    rw [htouches.2]
    rcases hmade with ⟨old, -, -, -, rfl⟩ | ⟨-, rfl⟩
    · simpa [Solution.merge, hr'] using hr
    · exact Option.some.inj (hr'.symm.trans hr)
  rcases hmade with ⟨old, -, -, -, rfl⟩ | ⟨hnone, rfl⟩
  · refine (mem_optional_iff hx).mpr ⟨μ, hμ, .inl ⟨st, hst, htouches.1, hagree, ?_⟩⟩
    refine Mapping.update_merge_ends hμx fun hs => ?_
    rw [Mapping.merge_ends_owner hx hs, Option.some.injEq] at hr
    rw [hr, htouches.2]
  · exact (hnone st hst htouches.1 hagree).elim

/-- While the subject is open the new property has no statement: one would have bound it. -/
theorem optional_unbound (h : Exchanges G s done Ω) (hx : x ≠ s)
    (hnew : x ∉ done.map Prod.snd)
    (hρ : ρ ∈ (Pattern.optionalTriple (m.triple (.var s) (.var x))).extend E G Ω)
    (hopen : ρ s = none) {p : Mapping × Var} (hp : p ∈ done ++ [(m, x)]) (hst : st ∈ G) :
    st.predicate ≠ p.1.iri := by
  obtain ⟨μ, hμ, hmade⟩ := (mem_optional_iff hx).mp hρ
  rcases hmade with ⟨old, -, -, -, rfl⟩ | ⟨hnone, rfl⟩
  · simp [Solution.merge, Mapping.ends, Ne.symm hx] at hopen
  · rcases List.mem_append.mp hp with hp | hp
    · exact h.unbound ρ hμ hopen p hp st hst
    · obtain rfl := List.mem_singleton.mp hp
      intro hiri
      refine hnone st hst hiri ?_
      rw [Mapping.compatible_ends hx (h.eq_none_of_new hx hnew hμ)]
      intro r hr
      rw [hopen] at hr
      cases hr

/-- The new property binds the subject and its own variable, and nothing else. -/
theorem optional_free (h : Exchanges G s done Ω) (hx : x ≠ s)
    (hρ : ρ ∈ (Pattern.optionalTriple (m.triple (.var s) (.var x))).extend E G Ω) {v : Var}
    (hv : (ρ v).isSome) : v = s ∨ v ∈ (done ++ [(m, x)]).map Prod.snd := by
  obtain ⟨μ, hμ, hmade⟩ := (mem_optional_iff hx).mp hρ
  rw [List.map_append, List.mem_append, ← or_assoc]
  rcases hmade with ⟨old, -, -, -, rfl⟩ | ⟨-, rfl⟩
  · rw [Solution.merge, Option.isSome_or, Bool.or_eq_true] at hv
    rcases hv with hv | hv
    · exact .inl (h.free μ hμ v hv)
    · rcases Mapping.eq_of_ends hv with rfl | rfl
      · exact .inl (.inl rfl)
      · exact .inr List.mem_cons_self
  · exact .inl (h.free ρ hμ v hv)

/-- **One more property.**  A value of any property may be exchanged if the new one has a
variable of its own. -/
theorem optional (h : Exchanges G s done Ω) (m : Mapping) {x : Var} (hx : x ≠ s)
    (hnew : x ∉ done.map Prod.snd) (hdone : s ∉ done.map Prod.snd) :
    Exchanges G s (done ++ [(m, x)])
      ((Pattern.optionalTriple (m.triple (.var s) (.var x))).extend E G Ω) where
  swap ρ hρ r hr p hp st hst htouches := by
    rcases List.mem_append.mp hp with hp | hp
    · exact h.optional_swap_old hx hnew hdone hρ hr hp hst htouches
    · obtain rfl := List.mem_singleton.mp hp
      exact h.optional_swap_new hx hnew hρ hr hst htouches
  unbound ρ hρ hopen p hp st hst := h.optional_unbound hx hnew hρ hopen hp hst
  free ρ hρ v hv := h.optional_free hx hρ hv

end Optional

/-- The patterns of all the properties, on variables of their own. -/
theorem run (h : Exchanges G s done Ω) (ps : List (Mapping × Var))
    (hnodup : (s :: (done ++ ps).map Prod.snd).Nodup) :
    Exchanges G s (done ++ ps)
      (Sparql.extendAll E G
        (ps.map fun p => .optionalTriple (p.1.triple (.var s) (.var p.2))) Ω) := by
  induction ps generalizing done Ω with
  | nil => simpa [Sparql.extendAll] using h
  | cons p rest ih =>
      have hall : (s :: ((done ++ [p]) ++ rest).map Prod.snd).Nodup := by simpa using hnodup
      obtain ⟨hs, hvars⟩ := List.nodup_cons.mp hnodup
      rw [List.map_append, List.mem_append, not_or] at hs
      rw [List.map_append, List.nodup_append] at hvars
      have hx : p.2 ≠ s := fun heq => hs.2 (heq ▸ List.mem_cons_self)
      have hnew : p.2 ∉ done.map Prod.snd := fun hmem =>
        hvars.2.2 p.2 hmem p.2 List.mem_cons_self rfl
      have hrest := ih (h.optional (E := E) p.1 hx hnew hs.1) hall
      simpa [Sparql.extendAll] using hrest

end Exchanges

end ObjectGraph
