import ObjectGraph.Proofs.Compile.Conditions
import ObjectGraph.Proofs.Sparql.Blocks
import ObjectGraph.Proofs.Variable.Names

/-!
# The types that are found

The patterns for the most specific type of a subject give it those of its types in the graph
that lead to the class and have no *direct* subclass among the other types of the subject
(`Rdf.Graph.Narrowest`, `MostSpecificType.types_eq`).  Every type that has none at all below
it is one of them (`Rdf.Graph.MostSpecific`), and there are no others if the graph says of a
subject all the classes between two of its types (`Rdf.Graph.Gapless`).  Otherwise a type may
be found that another one is below, with a class between them that the graph does not give
the subject.

All of this rests on the variables of the patterns being different ones, which they are
unless the user takes the name of one of them for the subject
(`MostSpecificType.compile_eq`).
-/

open Relation (TransGen ReflTransGen)

namespace ObjectGraph

open Allocator (nameOf IsName)
open Sparql (Var Term Triple Path Expression Pattern Solution Engine Completes groupSolutions)

/-! ## Classes in a graph -/

namespace Rdf.Graph

/-- The graph says that a term is of a type. -/
def HasType (G : Graph) (s t : Rdf.Term) : Prop :=
  G.Links Vocabulary.rdfType s t

/-- The graph says that a class is a subclass of another one. -/
def SubClass (G : Graph) (t u : Rdf.Term) : Prop :=
  G.Links Vocabulary.subClassOf t u

/-- A type leads to the class, if there is one, through subclass steps. -/
def Under (G : Graph) (class_ : Option String) (t : Rdf.Term) : Prop :=
  ∀ c ∈ class_, ReflTransGen G.SubClass t (.iri c)

/-- A type under the class that no other type of the term is a direct subclass of. -/
structure Narrowest (G : Graph) (class_ : Option String) (s t : Rdf.Term) : Prop where
  type : G.HasType s t
  under : G.Under class_ t
  narrowest : ∀ u, G.HasType s u → G.SubClass u t → u = t

/-- A type under the class that no other type of the term is a subclass of, directly or
through other classes. -/
structure MostSpecific (G : Graph) (class_ : Option String) (s t : Rdf.Term) : Prop where
  type : G.HasType s t
  under : G.Under class_ t
  narrowest : ∀ u, G.HasType s u → TransGen G.SubClass u t → u = t

/-- The classes between two types of a term are types of it. -/
def Gapless (G : Graph) (s : Rdf.Term) : Prop :=
  ∀ t u v, G.HasType s t → G.HasType s v → TransGen G.SubClass t u → TransGen G.SubClass u v →
    G.HasType s u

variable {G : Graph} {class_ : Option String} {s t : Rdf.Term}

/-- A type that has no other type of the term below it has none directly below it. -/
theorem MostSpecific.toNarrowest (h : G.MostSpecific class_ s t) : G.Narrowest class_ s t :=
  ⟨h.type, h.under, fun u hu hsub => h.narrowest u hu (.single hsub)⟩

/-- Without gaps a type with no direct subclass beside it has none further below. -/
theorem Narrowest.mostSpecific (h : G.Narrowest class_ s t) (hgapless : G.Gapless s) :
    G.MostSpecific class_ s t := by
  refine ⟨h.type, h.under, fun u hu hsub => ?_⟩
  -- from the top: each class on the way down to `u` that is a type of `s` is `t` itself
  induction hsub using TransGen.head_induction_on with
  | single hstep => exact h.narrowest _ hu hstep
  | head hstep hrest ih =>
      obtain rfl := ih (hgapless _ _ _ hu h.type (.single hstep) hrest)
      exact h.narrowest _ hu hstep

end Rdf.Graph

/-! ## Comparisons of nodes -/

namespace Sparql

/-- A store knows truth values, and it tells terms that are not both literals by their
identity. -/
structure Engine.TellsNodes (E : Engine) : Prop where
  truth : ∀ b, E.truth (.ofBool b) = some b
  eq : ∀ x y : Rdf.Term, x.isLiteral = false ∨ y.isLiteral = false →
    E.compare .eq x y = some (decide (x = y))
  ne : ∀ x y : Rdf.Term, x.isLiteral = false ∨ y.isLiteral = false →
    E.compare .ne x y = some (decide (x ≠ y))

variable {E : Engine} {G : Rdf.Graph} {μ : Solution} {x y : Var} {a b : Rdf.Term}

/-- Different nodes are told apart by `!=`. -/
theorem Engine.TellsNodes.ne_isTrue_iff (hE : E.TellsNodes) (hx : μ x = some a)
    (hy : μ y = some b) (ha : a.isLiteral = false) :
    (Expression.ne (.var x) (.var y)).IsTrue E G μ ↔ a ≠ b := by
  simp [Expression.IsTrue, Expression.ne, Expression.value?, hx, hy, hE.ne a b (.inl ha), hE.truth]

/-- A term is equal to an IRI exactly if it is that IRI. -/
theorem Engine.TellsNodes.eq_isTrue_iff (hE : E.TellsNodes) (hx : μ x = some a) (i : String) :
    (Expression.eq (.var x) (.iri i)).IsTrue E G μ ↔ a = .iri i := by
  simp [Expression.IsTrue, Expression.eq, Expression.value?, hx, hE.eq a (.iri i) (.inr rfl),
    hE.truth]

/-- A subject of patterns is about a term: a variable about each, an IRI about itself. -/
inductive Term.IsAbout : Term → Rdf.Term → Prop
  | var (x : Var) (s : Rdf.Term) : IsAbout (.var x) s
  | iri (i : String) : IsAbout (.iri i) (.iri i)

end Sparql

namespace MostSpecificType

variable {E : Engine} {G : Rdf.Graph} {μ : Solution} {subject : Term} {s t : Rdf.Term}
  {type subtype supertype : Var} {class_ : Option String} {c : String} {a : Allocator}
  {index : Nat}

/-! ## The filters -/

/-- No other type of the subject is a direct subclass of the type. -/
theorem noNarrower_isTrue_iff (hE : E.TellsNodes) (hsubject : ∀ σ, subject.value? σ μ = some s)
    (htype : μ type = some t) (hfree : μ subtype = none) :
    (noNarrower subject type subtype).IsTrue E G μ ↔
      ∀ u, G.HasType s u → G.SubClass u t → u = t := by
  unfold noNarrower
  rw [Expression.notExist_isTrue_iff hE.truth]
  constructor
  · intro h u hu hsub
    by_contra hne
    -- the other type would complete the solution
    let ν := μ.set subtype (some u)
    have hkeeps : ν.Extends μ := .set μ subtype _
    have hsubtype : ν subtype = some u := by simp [ν, Solution.set, hfree]
    have htype' : ν type = some t := hkeeps type t htype
    have hsubject' : ∀ σ, subject.value? σ ν = some s := fun σ =>
      Term.value?_extends hkeeps (hsubject σ)
    refine h ν ⟨hkeeps, fun v hv => ?_, fun v hv => ?_, fun _ => default, ?_⟩ ?_
    · have hne : v ≠ subtype := by
        rintro rfl
        simp [Triple.mem_vars] at hv
      exact if_neg hne
    · simp only [List.flatMap_cons, List.flatMap_nil, List.append_nil, List.mem_append,
        Triple.mem_vars, Path.toPredicate, Term.var.injEq, reduceCtorEq, false_or] at hv
      rcases hv with (rfl | hv) | (rfl | rfl)
      · rw [hsubtype]
        rfl
      · have hvalue := hsubject' fun _ => default
        rw [hv] at hvalue
        exact Option.isSome_of_eq_some hvalue
      · rw [hsubtype]
        rfl
      · rw [htype']
        rfl
    · simp only [List.forall_mem_cons, Triple.matches_inverse_iff, Triple.matches_iri_iff]
      exact ⟨⟨u, s, hsubtype, hsubject' _, hu⟩, ⟨u, t, hsubtype, htype', hsub⟩, by simp⟩
    · obtain ⟨st, -, rfl, -⟩ := hsub
      exact (hE.ne_isTrue_iff hsubtype htype' st.subject_isNode).mpr hne
  · rintro h ν ⟨hkeeps, -, -, σ, hmatch⟩ hne
    simp only [List.forall_mem_cons, Triple.matches_inverse_iff, Triple.matches_iri_iff] at hmatch
    obtain ⟨⟨u, s', hu, hs', htyped⟩, ⟨u', t', hu', ht', hsub⟩, -⟩ := hmatch
    obtain rfl := Option.some.inj ((Term.value?_extends hkeeps (hsubject σ)).symm.trans hs')
    obtain rfl := Option.some.inj (hu.symm.trans hu')
    obtain rfl := Option.some.inj ((hkeeps type t htype).symm.trans ht')
    obtain ⟨st, -, rfl, -⟩ := id hsub
    exact (hE.ne_isTrue_iff hu ht' st.subject_isNode).mp hne (h _ htyped hsub)

/-- The type leads to the class. -/
theorem under_isTrue_iff (hE : E.TellsNodes) (htype : μ type = some t) (ht : t ∈ G.nodes)
    (hfree : μ supertype = none) :
    (under type supertype c).IsTrue E G μ ↔ ReflTransGen G.SubClass t (.iri c) := by
  unfold under
  rw [Expression.exist_isTrue_iff hE.truth]
  constructor
  · rintro ⟨ν, ⟨hkeeps, -, -, σ, hmatch⟩, hequal⟩
    simp only [List.forall_mem_cons, Triple.matches_zeroOrMore_iff] at hmatch
    obtain ⟨⟨t', u, ht', hu, hpath⟩, -⟩ := hmatch
    obtain rfl := Option.some.inj ((hkeeps type t htype).symm.trans ht')
    obtain rfl := (hE.eq_isTrue_iff hu c).mp hequal
    rcases hpath with ⟨rfl, -⟩ | hpath
    · exact .refl
    · exact hpath.to_reflTransGen
  · intro hpath
    let ν := μ.set supertype (some (.iri c))
    have hkeeps : ν.Extends μ := .set μ supertype _
    have hsupertype : ν supertype = some (.iri c) := by simp [ν, Solution.set, hfree]
    have htype' : ν type = some t := hkeeps type t htype
    refine ⟨ν, ⟨hkeeps, fun v hv => ?_, fun v hv => ?_, fun _ => default, ?_⟩,
      (hE.eq_isTrue_iff hsupertype c).mpr rfl⟩
    · have hne : v ≠ supertype := by
        rintro rfl
        simp [Triple.mem_vars] at hv
      exact if_neg hne
    · simp only [List.flatMap_cons, List.flatMap_nil, List.append_nil, Triple.mem_vars,
        Path.toPredicate, Term.var.injEq, reduceCtorEq, false_or] at hv
      rcases hv with rfl | rfl
      · rw [htype']
        rfl
      · rw [hsupertype]
        rfl
    · simp only [List.forall_mem_cons, Triple.matches_zeroOrMore_iff]
      refine ⟨⟨t, .iri c, htype', hsupertype, ?_⟩, by simp⟩
      rcases Relation.reflTransGen_iff_eq_or_transGen.mp hpath with heq | hsteps
      · exact .inl ⟨heq.symm, .inl ht⟩
      · exact .inr hsteps

/-! ## The solutions -/

/-- The patterns of a most specific type, as a group has them. -/
def patterns (m : MostSpecificType) : List Pattern :=
  .triples [m.triple] :: m.filters.map .filter

/-- The types that the patterns give a term. -/
def types (m : MostSpecificType) (E : Engine) (G : Rdf.Graph) (subject : Term) (s : Rdf.Term) :
    Set Rdf.Term :=
  {t | ∃ μ ∈ groupSolutions E G m.patterns,
    (∃ σ, subject.value? σ μ = some s) ∧ μ m.typeVar = some t}

/-- The solutions are those of the triple that pass the filters. -/
theorem mem_groupSolutions {m : MostSpecificType} :
    μ ∈ groupSolutions E G m.patterns ↔
      Completes G [m.triple] .empty μ ∧ ∀ g ∈ m.filters, g.IsTrue E G μ := by
  have hfilters : ∀ (gs : List Expression) (Ω : Set Solution),
      Sparql.extendAll E G (gs.map .filter) Ω = Ω := by
    intro gs Ω
    induction gs with
    | nil => rfl
    | cons g rest ih => rw [List.map_cons, Sparql.extendAll, Pattern.extend, ih]
  simp only [groupSolutions, patterns, Set.mem_ofPred_eq, Sparql.extendAll, Pattern.extend,
    hfilters, Sparql.mem_join_block, Sparql.testAll_iff, List.forall_mem_cons, Pattern.test,
    true_and, List.forall_mem_map, Expression.IsTrue]

/-- The triple gives terms to its type and its subject only. -/
theorem eq_none_of_completes (h : Completes G [.ofType subject (.var type)] .empty μ) {v : Var}
    (htype : v ≠ type) (hsubject : subject ≠ .var v) : μ v = none := by
  refine h.within v fun hv => ?_
  simp only [List.flatMap_cons, List.flatMap_nil, List.append_nil, Triple.mem_vars, Triple.ofType,
    Term.var.injEq, reduceCtorEq, false_or] at hv
  exact hv.elim hsubject fun heq => htype heq.symm

/-- A solution of the triple gives its subject a type. -/
theorem hasType_of_completes (h : Completes G [.ofType subject (.var type)] .empty μ)
    (hsubject : ∀ σ, subject.value? σ μ = some s) (htype : μ type = some t) : G.HasType s t := by
  obtain ⟨σ, hmatch⟩ := h.matched
  obtain ⟨s', t', hs, ht, hlinks⟩ := Triple.matches_iri_iff.mp (hmatch _ List.mem_cons_self)
  obtain rfl := Option.some.inj ((hsubject σ).symm.trans hs)
  obtain rfl := Option.some.inj (htype.symm.trans ht)
  exact hlinks

/-- A term and a type of it are a solution of the triple. -/
theorem exists_completes (hsubject : subject.IsAbout s) (hne : subject ≠ .var type)
    (h : G.HasType s t) : ∃ μ, Completes G [.ofType subject (.var type)] .empty μ ∧
      (∀ σ, subject.value? σ μ = some s) ∧ μ type = some t := by
  let μ : Solution := fun v =>
    if v = type then some t else if subject = .var v then some s else none
  have htype : μ type = some t := if_pos rfl
  have hvalue : ∀ σ, subject.value? σ μ = some s := by
    intro σ
    cases hsubject with
    | var x =>
        have hx : x ≠ type := fun heq => hne (heq ▸ rfl)
        simp [μ, Term.value?, hx]
    | iri i => rfl
  refine ⟨μ, ⟨fun v x hx => ?_, fun v hv => ?_, fun v hv => ?_, fun _ => default, ?_⟩, hvalue,
    htype⟩
  · cases hx
  · have hends : v ≠ type ∧ subject ≠ .var v := by
      constructor <;> rintro rfl <;> simp [Triple.ofType, Triple.mem_vars] at hv
    simp only [μ, if_neg hends.1, if_neg hends.2]
    rfl
  · simp only [List.flatMap_cons, List.flatMap_nil, List.append_nil, Triple.mem_vars,
      Triple.ofType, Term.var.injEq, reduceCtorEq, false_or] at hv
    rcases hv with rfl | rfl
    · exact Option.isSome_of_eq_some (hvalue fun _ => default)
    · exact Option.isSome_of_eq_some htype
  · simp only [List.forall_mem_cons, Triple.ofType, Triple.matches_iri_iff]
    exact ⟨⟨s, t, hvalue _, htype, h⟩, by simp⟩

/-! ## The variables -/

/-- What the names of the variables of a type start with. -/
def stems : List String := ["type", "subtype", "supertype"]

/-- A subject that is no variable, or one that has its name for good and does not take it
from a variable of the type. -/
def Spares (index : Nat) (a : Allocator) (subject : Term) : Prop :=
  ∀ x, subject = .var x → Held x a ∧
    (x.name ∈ a.shared → ∀ stem ∈ stems, x.name ≠ stem ++ toString index)

/-- The filters of a type, by its variables. -/
def filtersOf (subject : Term) (class_ : Option String) (type subtype supertype : Var) :
    List Expression :=
  noNarrower subject type subtype :: (class_.map (under type supertype)).toList

/-- The patterns of a type are made from three variables, none of which is another one of
them or the subject. -/
theorem compile_eq (ha : a.SharedUsed) (hspares : Spares index a subject)
    (class_ : Option String) : ∃ type subtype supertype, (compile subject class_ index a).1 =
        ⟨type, .ofType subject (.var type), filtersOf subject class_ type subtype supertype⟩ ∧
      subtype ≠ type ∧ supertype ≠ type ∧
      ∀ v ∈ [type, subtype, supertype], subject ≠ .var v := by
  have hname : ∀ stem ∈ stems, nameOf (stem ++ toString index) = stem ++ toString index := by
    intro stem hstem
    refine Allocator.nameOf_eq_self_iff.mpr (IsName.append_toString ?_ index)
    simp only [stems, List.mem_cons, List.not_mem_nil, or_false] at hstem
    rcases hstem with rfl | rfl | rfl <;> exact Allocator.nameOf_eq_self_iff.mp (by decide)
  have hsubject : ∀ b : Allocator, b.shared = a.shared → (∀ x, subject = .var x → Held x b) →
      ∀ stem ∈ stems, subject ≠ .var (b.join (stem ++ toString index)).1 := by
    intro b hshared hheld stem hstem heq
    refine (hheld _ heq).ne_join_of_name (fun hmem => ?_) rfl
    rw [hname stem hstem]
    exact (hspares _ heq).2 (hshared ▸ hmem) stem hstem
  let type := a.join ("type" ++ toString index)
  let subtype := type.2.join ("subtype" ++ toString index)
  let supertype := subtype.2.join ("supertype" ++ toString index)
  have htype : Held type.1 type.2 := ⟨ha.join _, Allocator.join_name_mem ha _⟩
  have htype' : Held type.1 subtype.2 := (Held.lasting _).fresh.join _ htype
  have hshared : type.2.shared = a.shared := a.join_shared _
  have hshared' : subtype.2.shared = a.shared := (type.2.join_shared _).trans hshared
  have htold : ∀ stem ∈ ["subtype", "supertype"], type.1.name ∈ a.shared →
      type.1.name ≠ nameOf (stem ++ toString index) := by
    intro stem hstem hmem heq
    rw [hname stem (List.mem_cons_of_mem _ hstem), Allocator.name_of_join_shared ha hmem,
      hname "type" List.mem_cons_self] at heq
    simp only [List.mem_cons, List.not_mem_nil, or_false] at hstem
    rcases hstem with rfl | rfl <;>
      exact absurd (Allocator.append_toString_inj (by decide) (by decide) heq).1 (by decide)
  have hheld : ∀ x, subject = .var x → Held x a := fun x hx => (hspares x hx).1
  have hheld' : ∀ x, subject = .var x → Held x type.2 := fun x hx =>
    (Held.lasting x).fresh.join _ (hheld x hx)
  have hheld'' : ∀ x, subject = .var x → Held x subtype.2 := fun x hx =>
    (Held.lasting x).fresh.join _ (hheld' x hx)
  refine ⟨type.1, subtype.1, supertype.1, ?_, ?_, ?_, ?_⟩
  · unfold compile filtersOf
    cases class_ <;> rfl
  · exact (htype.ne_join_of_name fun hmem => htold _ (by simp) (hshared ▸ hmem)).symm
  · exact (htype'.ne_join_of_name fun hmem => htold _ (by simp) (hshared' ▸ hmem)).symm
  · simp only [List.forall_mem_cons]
    exact ⟨hsubject a rfl hheld _ (by simp [stems]), hsubject _ hshared hheld' _ (by simp [stems]),
      hsubject _ hshared' hheld'' _ (by simp [stems]), by simp⟩

/-- What the filters of a type ask of a solution of its triple. -/
theorem filtersOf_isTrue_iff (hE : E.TellsNodes)
    (hmatch : Completes G [.ofType subject (.var type)] .empty μ)
    (hsubject : ∀ σ, subject.value? σ μ = some s) (htype : μ type = some t)
    (hsub : subtype ≠ type) (hsuper : supertype ≠ type)
    (hne : ∀ v ∈ [type, subtype, supertype], subject ≠ .var v) :
    (∀ g ∈ filtersOf subject class_ type subtype supertype, g.IsTrue E G μ) ↔
      G.Narrowest class_ s t := by
  have hhas : G.HasType s t := hasType_of_completes hmatch hsubject htype
  have hnode : t ∈ G.nodes := by
    obtain ⟨st, hst, -, -, hobject⟩ := hhas
    exact ⟨st, hst, .inr hobject.symm⟩
  have hnarrower := noNarrower_isTrue_iff (G := G) hE hsubject htype
    (eq_none_of_completes hmatch hsub (hne _ (by simp)))
  have hunder := fun c => under_isTrue_iff (c := c) hE htype hnode
    (eq_none_of_completes hmatch hsuper (hne _ (by simp)))
  have hsplit : (∀ g ∈ filtersOf subject class_ type subtype supertype, g.IsTrue E G μ) ↔
      (∀ u, G.HasType s u → G.SubClass u t → u = t) ∧ G.Under class_ t := by
    unfold filtersOf Rdf.Graph.Under
    rw [List.forall_mem_cons, hnarrower]
    refine and_congr_right fun _ => ?_
    cases class_ with
    | none => simp
    | some c => simpa using hunder c
  rw [hsplit]
  exact ⟨fun h => ⟨hhas, h.2, h.1⟩, fun h => ⟨h.narrowest, h.under⟩⟩

/-- The types that are found have no other type of the subject directly below them. -/
theorem types_eq (hE : E.TellsNodes) (hsubject : subject.IsAbout s) (ha : a.SharedUsed)
    (hspares : Spares index a subject) (class_ : Option String) (G : Rdf.Graph) :
    (compile subject class_ index a).1.types E G subject s = {t | G.Narrowest class_ s t} := by
  obtain ⟨type, subtype, supertype, heq, hsub, hsuper, hne⟩ := compile_eq ha hspares class_
  rw [heq]
  ext t
  constructor
  · rintro ⟨μ, hμ, ⟨σ, hvalue⟩, htype⟩
    obtain ⟨hmatch, hfilters⟩ := mem_groupSolutions.mp hμ
    have hvalue' : ∀ σ, subject.value? σ μ = some s := by
      cases hsubject with
      | var | iri => exact fun _ => hvalue
    exact (filtersOf_isTrue_iff hE hmatch hvalue' htype hsub hsuper hne).mp hfilters
  · intro h
    obtain ⟨μ, hmatch, hvalue, htype⟩ := exists_completes hsubject (hne type (by simp)) h.type
    have hfilters := (filtersOf_isTrue_iff hE hmatch hvalue htype hsub hsuper hne).mpr h
    exact ⟨μ, mem_groupSolutions.mpr ⟨hmatch, hfilters⟩, ⟨fun _ => default, hvalue _⟩, htype⟩

/-- **What resolved types are.**  A subject is given those of its types that lead to the class
and have no other type of it directly below them.  All its most specific types are among
them, and without gaps between its types there are no others. -/
theorem resolved_types (hE : E.TellsNodes) (hsubject : subject.IsAbout s) (ha : a.SharedUsed)
    (hspares : Spares index a subject) (class_ : Option String) (G : Rdf.Graph) :
    let types := (compile subject class_ index a).1.types E G subject s
    types = {t | G.Narrowest class_ s t} ∧ {t | G.MostSpecific class_ s t} ⊆ types ∧
      (G.Gapless s → types = {t | G.MostSpecific class_ s t}) := by
  intro types
  have htypes : types = {t | G.Narrowest class_ s t} := types_eq hE hsubject ha hspares class_ G
  refine ⟨htypes, ?_, fun hgapless => ?_⟩
  · rw [htypes]
    exact fun t ht => ht.toNarrowest
  · rw [htypes]
    exact Set.ext fun t => ⟨fun ht => ht.mostSpecific hgapless, fun ht => ht.toNarrowest⟩

end MostSpecificType

namespace Entity

variable {ns : Namespaces} {config : Config} {options : CompileOptions} {e : Entity}
  {a a' b : Allocator} {f : Fragment} {s : Term}

/-- The subject of an entity has a name for good, and takes it from a variable of the type only
if the user says so. -/
theorem subjectTerm_spares (ha : a.SharedUsed) (hs : e.subjectTerm ns a = .ok (s, b))
    (hname : ∀ name, e.identityName? = some name → ∀ stem ∈ MostSpecificType.stems,
      nameOf name ≠ stem ++ toString e.index) : MostSpecificType.Spares e.index b s := by
  have hb : b.SharedUsed := Lasting.sharedUsed.subjectTerm hs ha
  rintro x rfl
  rcases subjectTerm_cases hs with ⟨_, _, hsubject, _⟩ | ⟨_, name, hc, hsubject, rfl⟩ |
    ⟨_, _, hsubject, rfl⟩
  · cases hsubject
  · obtain rfl := Term.var.inj hsubject
    refine ⟨⟨hb, List.mem_cons_self⟩, fun _ => hname name ?_⟩
    rw [identityName?, hc]
    rfl
  · obtain rfl := Term.var.inj hsubject
    refine ⟨⟨hb, Allocator.join_name_mem ha _⟩, fun hmem stem hstem heq => ?_⟩
    rw [a.join_shared] at hmem
    have hplain : IsName "eIri" := Allocator.nameOf_eq_self_iff.mp (by decide)
    have hIri : nameOf ("eIri" ++ toString e.index) = "eIri" ++ toString e.index :=
      Allocator.nameOf_eq_self_iff.mpr (hplain.append_toString _)
    rw [Allocator.name_of_join_shared ha hmem, hIri] at heq
    simp only [MostSpecificType.stems, List.mem_cons, List.not_mem_nil, or_false] at hstem
    rcases hstem with rfl | rfl | rfl <;>
      exact absurd (Allocator.append_toString_inj (by decide) (by decide) heq).1 (by decide)

/-- An entity that resolves its type has patterns that find the types of its subject. -/
theorem compile_resolves (ha : a.SharedUsed) (h : e.compile ns config options a = .ok (f, a'))
    (hresolve : e.resolveType = true)
    (hname : ∀ name, e.identityName? = some name → ∀ stem ∈ MostSpecificType.stems,
      nameOf name ≠ stem ++ toString e.index) :
    ∃ m : MostSpecificType, m.triple ∈ f.mandatory ∧ m.filters ⊆ f.filters ∧
      ∀ (E : Engine) (G : Rdf.Graph) (t : Rdf.Term), E.TellsNodes → f.subject.IsAbout t →
        m.types E G f.subject t = {u | G.Narrowest (e.class? ns) t u} := by
  cases hs : e.subjectTerm ns a with
  | error x => simp [compile, hs, bind, Except.bind] at h
  | ok made =>
      obtain ⟨s, b⟩ := made
      have hextends : ((Draft.opening ns e s b).addType ns e).fragment.Extends f := by
        rw [compile_restricting h hs]
        exact addType_extends.trans (.selected _ _)
      have hsubject : f.subject = s :=
        hextends.subject.trans ((Draft.addType_types ns e _).extends.subject.trans
          (Draft.opening_subject ns e s b))
      have hmandatory := hextends.mandatory
      have hfilters := hextends.filters
      simp only [Draft.addType, hresolve, if_true, Draft.opening_subject,
        Draft.opening_alloc] at hmandatory hfilters
      rw [hsubject]
      refine ⟨_, hmandatory (List.mem_append_right _ List.mem_cons_self),
        fun g hg => hfilters (List.mem_append_right _ hg), fun E G t hE habout => ?_⟩
      exact MostSpecificType.types_eq hE habout (Lasting.sharedUsed.subjectTerm hs ha)
        (subjectTerm_spares ha hs hname) (e.class? ns) G

end Entity

/-- A store that tells all terms by their identity. -/
def Sparql.Engine.byIdentity : Engine where
  compare
    | .eq, x, y => some (decide (x = y))
    | .ne, x, y => some (decide (x ≠ y))
    | _, _, _ => none
  call _ _ := none
  truth x := if x = .ofBool true then some true else if x = .ofBool false then some false else none
  remote _ := ∅
  cut _ Ω := Ω
  fresh _ label := .blank label

/-- A store that goes by the identity of terms tells nodes. -/
theorem Sparql.Engine.byIdentity_tellsNodes : Engine.byIdentity.TellsNodes where
  truth b := by cases b <;> rfl
  eq _ _ _ := rfl
  ne _ _ _ := rfl

/-- A statement between IRIs. -/
def Rdf.Statement.ofIris (subject predicate object : String) : Rdf.Statement :=
  ⟨.iri subject, predicate, .iri object, Rdf.Term.isLiteral_iri subject⟩

/-- A report, with the types that it is said to have, and what reports are. -/
def reports (types : List String) : Rdf.Graph :=
  {st | st ∈ types.map (.ofIris "urn:r" Vocabulary.rdfType) ++
    [.ofIris "urn:Report" Vocabulary.subClassOf "urn:Document",
     .ofIris "urn:Document" Vocabulary.subClassOf "urn:Artifact"]}

section

variable {types : List String} {t u : Rdf.Term}

/-- The report has the types that it is given. -/
theorem hasType_reports :
    (reports types).HasType (.iri "urn:r") t ↔ ∃ c ∈ types, t = .iri c := by
  simp [Rdf.Graph.HasType, Rdf.Graph.Links, reports, Rdf.Statement.ofIris, or_and_right, exists_or,
    eq_comm]

/-- Reports are documents, and documents artifacts. -/
theorem subClass_reports : (reports types).SubClass t u ↔
    (t = .iri "urn:Report" ∧ u = .iri "urn:Document") ∨
      (t = .iri "urn:Document" ∧ u = .iri "urn:Artifact") := by
  have hpredicate : Vocabulary.rdfType ≠ Vocabulary.subClassOf := by decide
  simp [Rdf.Graph.SubClass, Rdf.Graph.Links, reports, Rdf.Statement.ofIris, or_and_right, exists_or,
    hpredicate, eq_comm]

/-- Reports are artifacts as well, by way of documents. -/
theorem transGen_reports : TransGen (reports types).SubClass t u ↔
    (t = .iri "urn:Report" ∧ u = .iri "urn:Document") ∨
      (t = .iri "urn:Document" ∧ u = .iri "urn:Artifact") ∨
      (t = .iri "urn:Report" ∧ u = .iri "urn:Artifact") := by
  have hreport : (reports types).SubClass (.iri "urn:Report") (.iri "urn:Document") :=
    subClass_reports.mpr (.inl ⟨rfl, rfl⟩)
  have hdocument : (reports types).SubClass (.iri "urn:Document") (.iri "urn:Artifact") :=
    subClass_reports.mpr (.inr ⟨rfl, rfl⟩)
  constructor
  · intro h
    induction h with
    | single hstep => exact (subClass_reports.mp hstep).imp_right .inl
    | tail _ hstep ih =>
        rcases subClass_reports.mp hstep with ⟨rfl, rfl⟩ | ⟨rfl, rfl⟩
        · simp at ih
        · simp only [Rdf.Term.iri.injEq, String.reduceEq, and_false, and_true, or_false] at ih
          exact .inr (.inr ⟨ih, rfl⟩)
  · rintro (⟨rfl, rfl⟩ | ⟨rfl, rfl⟩ | ⟨rfl, rfl⟩)
    · exact .single hreport
    · exact .single hdocument
    · exact .tail (.single hreport) hdocument

end

namespace MostSpecificType

/-- The patterns for the types of artifacts, of a subject that is a variable. -/
def artifactTypes (x : Var) (a : Allocator) : MostSpecificType :=
  (compile (.var x) (some "urn:Artifact") 0 a).1

/-- A subject with a name of its own is spared by the variables of the type. -/
theorem spares_eIri : Spares 0 (Allocator.empty.join "eIri0").2 (.var ⟨"eIri0"⟩) := by
  intro x hx
  obtain rfl := Term.var.inj hx
  exact ⟨⟨Allocator.sharedUsed_empty.join _, by decide⟩, fun hmem => absurd hmem (by decide)⟩

/-- No class is below reports. -/
theorem mostSpecific_report {types : List String} (h : "urn:Report" ∈ types) :
    (reports types).MostSpecific (some "urn:Artifact") (.iri "urn:r") (.iri "urn:Report") := by
  refine ⟨hasType_reports.mpr ⟨_, h, rfl⟩, fun c hc => ?_, fun u _ hsub => ?_⟩
  · obtain rfl := Option.some.inj hc
    exact (transGen_reports.mpr (by simp)).to_reflTransGen
  · simp [transGen_reports] at hsub

/-- A type that reports are below is not the most specific one of a report. -/
theorem not_mostSpecific {types : List String} (h : "urn:Report" ∈ types) {t : Rdf.Term}
    (hbelow : TransGen (reports types).SubClass (.iri "urn:Report") t) :
    ¬ (reports types).MostSpecific (some "urn:Artifact") (.iri "urn:r") t := by
  intro hspecific
  have hsame := hspecific.narrowest _ (hasType_reports.mpr ⟨_, h, rfl⟩) hbelow
  simp [← hsame, transGen_reports] at hbelow

/-- A report that is said to be a document and an artifact too is found to be a report. -/
theorem resolved_types_report :
    let x : Var := ⟨"eIri0"⟩
    let G := reports ["urn:Artifact", "urn:Document", "urn:Report"]
    Engine.byIdentity.TellsNodes ∧ G.Gapless (.iri "urn:r") ∧
      (artifactTypes x (Allocator.empty.join "eIri0").2).types .byIdentity G (.var x)
        (.iri "urn:r") = {.iri "urn:Report"} := by
  intro x G
  have hgapless : G.Gapless (.iri "urn:r") := by
    intro t u v _ _ htu _
    rw [hasType_reports]
    rcases transGen_reports.mp htu with ⟨-, rfl⟩ | ⟨-, rfl⟩ | ⟨-, rfl⟩ <;> simp
  have hresolved := (resolved_types Engine.byIdentity_tellsNodes (.var x (.iri "urn:r"))
    (Allocator.sharedUsed_empty.join _) spares_eIri (some "urn:Artifact") G).2.2 hgapless
  refine ⟨Engine.byIdentity_tellsNodes, hgapless, hresolved.trans (Set.ext fun t => ?_)⟩
  constructor
  · intro hspecific
    by_contra hother
    obtain ⟨c, hc, rfl⟩ := hasType_reports.mp hspecific.type
    refine not_mostSpecific (by simp) (transGen_reports.mpr ?_) hspecific
    simp only [List.mem_cons, List.not_mem_nil, or_false] at hc
    rcases hc with rfl | rfl | rfl
    · simp
    · simp
    · exact (hother rfl).elim
  · rintro rfl
    exact mostSpecific_report (by simp)

/-- A report that is said to be an artifact, and not to be a document, is found to be an
artifact too.  And a subject that has the name of the variable for its type is found to be
nothing at all. -/
theorem types_with_gap :
    let x : Var := ⟨"eIri0"⟩
    let y : Var := ⟨"type0"⟩
    let G := reports ["urn:Artifact", "urn:Report"]
    Engine.byIdentity.TellsNodes ∧ (∀ t, ¬ TransGen G.SubClass t t) ∧
      ¬ G.MostSpecific (some "urn:Artifact") (.iri "urn:r") (.iri "urn:Artifact") ∧
      .iri "urn:Artifact" ∈ (artifactTypes x (Allocator.empty.join "eIri0").2).types .byIdentity G
        (.var x) (.iri "urn:r") ∧
      G.MostSpecific (some "urn:Artifact") (.iri "urn:r") (.iri "urn:Report") ∧
      (artifactTypes y (Allocator.empty.share "?type0").2).types .byIdentity G (.var y)
        (.iri "urn:r") = ∅ := by
  intro x y G
  refine ⟨Engine.byIdentity_tellsNodes, fun t h => ?_, ?_, ?_, mostSpecific_report (by simp), ?_⟩
  · rcases transGen_reports.mp h with ⟨rfl, h⟩ | ⟨rfl, h⟩ | ⟨rfl, h⟩ <;> simp at h
  · exact not_mostSpecific (by simp) (transGen_reports.mpr (by simp))
  · unfold artifactTypes
    rw [types_eq Engine.byIdentity_tellsNodes (.var x _) (Allocator.sharedUsed_empty.join _)
      spares_eIri]
    refine ⟨hasType_reports.mpr ⟨_, by simp, rfl⟩, fun c hc => ?_, fun u hu hsub => ?_⟩
    · obtain rfl := Option.some.inj hc
      exact .refl
    · obtain ⟨c, hc, rfl⟩ := hasType_reports.mp hu
      rcases subClass_reports.mp hsub with ⟨-, h⟩ | ⟨h, -⟩
      · simp at h
      · obtain rfl := Rdf.Term.iri.inj h
        simp at hc
  · refine Set.eq_empty_of_forall_notMem ?_
    rintro t ⟨μ, hμ, ⟨σ, hvalue⟩, -⟩
    have hmatch : Completes G [.ofType (.var y) (.var y)] .empty μ := (mem_groupSolutions.mp hμ).1
    have hself := hasType_reports.mp (hasType_of_completes hmatch (fun _ => hvalue) hvalue)
    simp at hself

end MostSpecificType

end ObjectGraph
