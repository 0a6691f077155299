import ObjectGraph.Compile.Entity
import ObjectGraph.Proofs.Sparql.Semantics

/-!
# Solutions that cover the values of properties

A property joins two ends of a statement, what it belongs to and its value, in one
direction or the other (`Mapping.owner`, `Mapping.other`).  A group that asks for the
values of some properties of a resource, each in a triple of its own that may be
missing, has combinations of values as its solutions, and a property without a value
leaves its variable unbound.  `Covers` says what is needed of these combinations: there
is a solution, each value of each property is in one of them, and no variable is bound
but those of the properties.  One more property keeps this up (`Covers.optional`),
because its variable is new: a new binding agrees with every solution that is there, and
the left join loses none.
-/

namespace ObjectGraph

open Sparql (Var Term Triple Pattern Solution Engine)

namespace Mapping

/-- The end of a statement that the property belongs to. -/
def owner (m : Mapping) (s : Rdf.Statement) : Rdf.Term :=
  if m.reverse then s.object else s.subject

/-- The end of a statement that is the value of the property. -/
def other (m : Mapping) (s : Rdf.Statement) : Rdf.Term :=
  if m.reverse then s.subject else s.object

/-- A statement gives a value of the property to `x`. -/
def Touches (m : Mapping) (x : Rdf.Term) (s : Rdf.Statement) : Prop :=
  s.predicate = m.iri ∧ m.owner s = x

/-- Statements of a property are told apart by what it belongs to and its value. -/
theorem Touches.unique {m : Mapping} {x : Rdf.Term} {s s' : Rdf.Statement}
    (h : m.Touches x s) (h' : m.Touches x s') (hother : m.other s = m.other s') : s = s' := by
  have howner : m.owner s = m.owner s' := h.2.trans h'.2.symm
  have hpredicate : s.predicate = s'.predicate := h.1.trans h'.1.symm
  unfold owner at howner
  unfold other at hother
  cases hreverse : m.reverse with
  | true =>
      simp only [hreverse, if_true] at howner hother
      exact Rdf.Statement.ext hother hpredicate howner
  | false =>
      simp only [hreverse, Bool.false_eq_true, if_false] at howner hother
      exact Rdf.Statement.ext howner hpredicate hother

/-- Any two terms are the ends of a statement of the property, if the one that
comes first is no literal. -/
theorem exists_touches (m : Mapping) {x y : Rdf.Term} (hx : x.isLiteral = false)
    (hy : m.reverse = true → y.isLiteral = false) :
    ∃ s, m.Touches x s ∧ m.other s = y := by
  unfold Touches owner other
  cases hreverse : m.reverse with
  | true => exact ⟨⟨y, m.iri, x, hy hreverse⟩, by simp⟩
  | false => exact ⟨⟨x, m.iri, y, hx⟩, by simp⟩

/-- The triple of a property becomes the statements whose ends its terms have. -/
theorem denotes_triple {m : Mapping} {subject object : Term} {σ : String → Rdf.Term}
    {μ : Solution} {s : Rdf.Statement} :
    (m.triple subject object).Denotes σ μ s ↔
      s.predicate = m.iri ∧ subject.value? σ μ = some (m.owner s) ∧
        object.value? σ μ = some (m.other s) := by
  unfold triple owner other Triple.Denotes
  cases m.reverse with
  | true =>
      simp only [if_true]
      exact ⟨fun ⟨ho, hs, hp⟩ => ⟨hp, hs, ho⟩, fun ⟨hp, hs, ho⟩ => ⟨ho, hs, hp⟩⟩
  | false =>
      simp only [Bool.false_eq_true, if_false]
      exact ⟨fun ⟨hs, ho, hp⟩ => ⟨hp, hs, ho⟩, fun ⟨hp, hs, ho⟩ => ⟨hs, ho, hp⟩⟩

/-- The triple of a fixed subject has the variable of its value only. -/
theorem vars_triple (m : Mapping) (S : String) (x : Var) :
    (m.triple (.iri S) (.var x)).vars = [x] := by
  unfold triple
  cases m.reverse <;> rfl

end Mapping

/-- The values that the properties of `done` have in a graph are spread over the
solutions: each is bound to the variable of its property in one of them. -/
structure Covers (G : Rdf.Graph) (x : Rdf.Term) (done : List (Mapping × Var))
    (Ω : Set Solution) : Prop where
  nonempty : Ω.Nonempty
  complete : ∀ p ∈ done, ∀ s ∈ G, p.1.Touches x s → ∃ μ ∈ Ω, μ p.2 = some (p.1.other s)
  free : ∀ μ ∈ Ω, ∀ v, (μ v).isSome → v ∈ done.map Prod.snd

namespace Covers

variable {E : Engine} {G : Rdf.Graph} {S : String} {done : List (Mapping × Var)}
  {Ω : Set Solution}

/-- The empty solution covers what no property asks for. -/
theorem empty (G : Rdf.Graph) (x : Rdf.Term) : Covers G x [] {.empty} where
  nonempty := ⟨.empty, rfl⟩
  complete _ hp := (List.not_mem_nil hp).elim
  free := by
    rintro μ rfl v hv
    cases hv

/-- A value of a property of a fixed subject is a solution of its triple. -/
theorem single_mem_blockSolutions {m : Mapping} {s : Rdf.Statement} (hs : s ∈ G)
    (htouches : m.Touches (.iri S) s) (x : Var) :
    (fun v => if v = x then some (m.other s) else none) ∈
      Sparql.blockSolutions G [m.triple (.iri S) (.var x)] := by
  refine ⟨?_, fun _ => .iri S, ?_⟩
  · intro v
    simp [m.vars_triple]
  · intro t ht
    obtain rfl := List.mem_singleton.mp ht
    have hdenotes : (m.triple (.iri S) (.var x)).Denotes (fun _ => .iri S)
        (fun v => if v = x then some (m.other s) else none) s := by
      rw [Mapping.denotes_triple]
      exact ⟨htouches.1, by rw [htouches.2]; rfl, by simp [Term.value?]⟩
    have hpredicate : (m.triple (.iri S) (.var x)).predicate = .iri m.iri := by
      unfold Mapping.triple
      split <;> rfl
    unfold Triple.Matches
    rw [hpredicate]
    exact ⟨s, hs, hdenotes⟩

/-- **One more property.**  A new variable takes every value of the property beside
each solution that is there. -/
theorem optional (h : Covers G (.iri S) done Ω) (m : Mapping) {x : Var}
    (hx : x ∉ done.map Prod.snd) :
    Covers G (.iri S) (done ++ [(m, x)])
      ((Pattern.optionalTriple (m.triple (.iri S) (.var x))).extend E G Ω) := by
  have hunbound : ∀ μ ∈ Ω, μ x = none := by
    intro μ hμ
    by_contra hsome
    exact hx (h.free μ hμ x (Option.isSome_iff_ne_none.mpr hsome))
  rw [Sparql.extend_optionalTriple]
  refine ⟨?_, ?_, ?_⟩
  · obtain ⟨μ, hμ⟩ := h.nonempty
    obtain ⟨ρ, hρ, _⟩ := Sparql.exists_mem_leftJoin hμ
    exact ⟨ρ, hρ⟩
  · intro p hp s hs htouches
    rcases List.mem_append.mp hp with hp | hp
    · obtain ⟨μ, hμ, hvalue⟩ := h.complete p hp s hs htouches
      obtain ⟨ρ, hρ, hkeeps⟩ := Sparql.exists_mem_leftJoin hμ
      exact ⟨ρ, hρ, hkeeps _ _ hvalue⟩
    · obtain rfl := List.mem_singleton.mp hp
      obtain ⟨μ, hμ⟩ := h.nonempty
      let ν : Solution := fun v => if v = x then some (m.other s) else none
      have hν : ν ∈ Sparql.blockSolutions G [m.triple (.iri S) (.var x)] :=
        single_mem_blockSolutions hs htouches x
      have hcompatible : μ.Compatible ν := by
        intro v a b ha hb
        have hv : v = x := by
          by_contra hne
          simp [ν, hne] at hb
        rw [hv, hunbound μ hμ] at ha
        cases ha
      refine ⟨μ.merge ν, ⟨μ, hμ, .inl ⟨ν, hν, hcompatible, trivial, rfl⟩⟩, ?_⟩
      simp [Solution.merge, hunbound μ hμ, ν]
  · rintro ρ ⟨μ, hμ, hρ⟩ v hv
    rw [List.map_append, List.mem_append]
    rcases hρ with ⟨ν, hν, _, _, rfl⟩ | ⟨_, rfl⟩
    · rw [Solution.merge, Option.isSome_or, Bool.or_eq_true] at hv
      rcases hv with hv | hv
      · exact .inl (h.free μ hμ v hv)
      · have hmem := (hν.1 v).mp hv
        simp only [List.flatMap_cons, List.flatMap_nil, List.append_nil, m.vars_triple] at hmem
        exact .inr hmem
    · exact .inl (h.free ρ hμ v hv)

/-- The patterns of all the properties, on variables of their own. -/
theorem run (h : Covers G (.iri S) done Ω) (ps : List (Mapping × Var))
    (hnodup : ((done ++ ps).map Prod.snd).Nodup) :
    Covers G (.iri S) (done ++ ps)
      (Sparql.extendAll E G
        (ps.map fun p => .optionalTriple (p.1.triple (.iri S) (.var p.2))) Ω) := by
  induction ps generalizing done Ω with
  | nil => simpa [Sparql.extendAll] using h
  | cons p rest ih =>
      have hx : p.2 ∉ done.map Prod.snd := by
        intro hmem
        rw [List.map_append, List.nodup_append] at hnodup
        exact hnodup.2.2 p.2 hmem p.2 List.mem_cons_self rfl
      have hrest := ih (h.optional (E := E) p.1 hx) (by simpa using hnodup)
      simpa [Sparql.extendAll] using hrest

end Covers

end ObjectGraph
