import ObjectGraph.Proofs.Compile.ComputedKeys
import ObjectGraph.Proofs.Compile.RequiredNames
import ObjectGraph.Proofs.Compile.ResolvedTypes

/-!
# Computed keys in sub-selects

A SELECT computes its keys after the triples of all entities.  A CONSTRUCT that moves an entity
into a sub-select computes the keys of the entity there, where the triples of the other entities
are not seen.  A name that the tests share with another entity is the same for both queries if
the entity itself requires it (`Entity.Requires`).  Then the sub-select binds it in each of its
solutions, and both queries give a computed key the value of its test under the whole solution
(`subselect_sees_shared`).

A name that only another entity binds is open in the sub-select, where the test finds any value
for it (`maker_out_of_sight`).
-/

namespace ObjectGraph

open Allocator (nameOf varOf)
open Sparql (Var Term Triple Expression Pattern Select Solution Engine groupScope groupSolutions)

/-! ## What a sub-select sees -/

/-- The tests of an entity look at a name that the triples of one of the others have. -/
structure Part.Consults (p : Part) (others : List Part) (name : String) : Prop where
  tested : name ∈ p.entity.computedNames
  mentioned : ∃ other ∈ others, other.fragment.Mentions (varOf name)

namespace Collection

variable {ns : Namespaces} {config : Config} {c : Collection} {plan : ConstructPlan}
  {before after : List Part} {p : Part} {q : Select} {E : Engine} {G : Rdf.Graph} {ρ ν : Solution}

/-- Only an entity that no service answers is moved into a sub-select. -/
theorem service_of_moved (hmoved : c.subselect? p = some (.subselect q)) :
    p.fragment.service = none := by
  unfold subselect? at hmoved
  split at hmoved
  · cases hmoved
  next hservice => simpa using hservice

/-- The patterns of one entity in place are a merged group. -/
theorem mergePatterns_singleton {f : Fragment} (hservice : f.service = none) :
    mergePatterns [f] = f.patterns := by
  simp [mergePatterns, servicePattern?, Fragment.patterns, hservice]

/-- The solutions of a sub-select are some of those that its entity has alone. -/
theorem solutions_of_moved (hE : E.CutsOnly) (hmoved : c.subselect? p = some (.subselect q))
    (hν : ν ∈ q.solutions E G) : ν ∈ groupSolutions E G p.fragment.patterns := by
  obtain ⟨distinct, modifiers, hq⟩ := subselect?_cases hmoved
  cases hq
  rw [Sparql.solutions_of hE (fun _ => Fragment.mem_boundVars.mpr)] at hν
  exact hE modifiers _ hν

/-- A sub-select binds the variables of triples that must be there. -/
theorem isSome_of_moved (hE : E.CutsOnly) (hmoved : c.subselect? p = some (.subselect q))
    (hν : ν ∈ q.solutions E G) {t : Triple} (ht : t ∈ p.fragment.mandatory) {v : Var}
    (hv : v ∈ t.vars) : (ν v).isSome := by
  have hblock : Pattern.triples p.fragment.mandatory ∈ p.fragment.patterns := by
    simp [Fragment.patterns, List.isEmpty_eq_false_iff.mpr (List.ne_nil_of_mem ht)]
  exact Sparql.isSome_of_block hblock (solutions_of_moved hE hmoved hν).1
    (List.mem_flatMap.mpr ⟨t, ht, hv⟩)

/-- A solution of the WHERE clause takes up one of each sub-select, and adds to it what the
patterns of the other entities bind. -/
theorem agrees_with_moved (hE : E.CutsOnly) (hconstruct : c.compileConstruct ns config = .ok plan)
    (hparts : plan.parts = before ++ p :: after) (hmoved : c.subselect? p = some (.subselect q))
    (hρ : ρ ∈ groupSolutions E G plan.query.body) :
    ∃ ν ∈ q.solutions E G, ρ.Extends ν ∧
      ∀ v, (∀ other ∈ before ++ after, v ∉ groupScope other.fragment.patterns) → ρ v = ν v := by
  obtain ⟨parts, -, rfl⟩ := compileConstruct_cases hconstruct
  obtain rfl : parts = before ++ p :: after := hparts
  have hflat : ∀ other ∈ (before ++ p :: after).filter fun p => (c.subselect? p).isNone,
      other ∈ before ++ after := by
    intro other hother
    obtain ⟨hmem, hnone⟩ := List.mem_filter.mp hother
    rcases List.mem_append.mp hmem with hmem | hmem
    · exact List.mem_append_left _ hmem
    · rcases List.mem_cons.mp hmem with rfl | hmem
      · rw [hmoved] at hnone
        cases hnone
      · exact List.mem_append_right _ hmem
  have hscope : ∀ {l : List Part} {v : Var}, v ∈ groupScope (l.filterMap c.subselect?) →
      ∃ other ∈ l, v ∈ groupScope other.fragment.patterns := by
    intro l v hv
    obtain ⟨pattern, hpattern, hv⟩ := Sparql.mem_groupScope.mp hv
    obtain ⟨other, hother, hsubselect⟩ := List.mem_filterMap.mp hpattern
    exact ⟨other, hother, (mem_scope_subselect hsubselect).mp hv⟩
  have hbody := hρ.1
  rw [List.filterMap_append, List.filterMap_cons_some hmoved, List.append_assoc,
    List.cons_append] at hbody
  obtain ⟨ν, hν, hextends, hagrees⟩ := Sparql.agrees_with_subselect hE hbody
  refine ⟨ν, hν, hextends, fun v hv => hagrees v fun hbound => ?_⟩
  simp only [Sparql.groupScope_append, List.mem_append, mem_scope_mergePatterns] at hbound
  rcases hbound with hbound | hbound | ⟨f, hf, hbound⟩
  · obtain ⟨other, hother, hbound⟩ := hscope hbound
    exact hv other (List.mem_append_left _ hother) hbound
  · obtain ⟨other, hother, hbound⟩ := hscope hbound
    exact hv other (List.mem_append_right _ hother) hbound
  · obtain ⟨other, hother, rfl⟩ := List.mem_map.mp hf
    exact hv other (hflat other hother) hbound

/-- A sub-select gives the computed keys of its entity the values of their tests. -/
theorem value_of_moved {W : String → Prop} {parts : List Part} {b : Expression × Var}
    (hE : E.CutsOnly) (hapart : ComputesApart ns W parts) (hp : p ∈ parts)
    (hmoved : c.subselect? p = some (.subselect q)) (hν : ν ∈ q.solutions E G)
    (hb : b ∈ p.fragment.binds) : ν b.2 = b.1.value? E G ν := by
  have hservice := service_of_moved hmoved
  have hgroup : ν ∈ groupSolutions E G (mergePatterns ([p].map (·.fragment))) := by
    rw [List.map_singleton, mergePatterns_singleton hservice]
    exact solutions_of_moved hE hmoved hν
  exact (hapart.single hp).value hE hgroup List.mem_cons_self hservice hb

/-- An entity that requires the written name of another's triples has it in a triple that must be
there. -/
theorem mandatory_of_requires {parts : List Part} {options : CompileOptions} {n : String}
    (h : c.compileParts ns config options = .ok parts) (hp : p ∈ parts) (hn : c.Chooses n)
    (hrequires : p.entity.Requires c.Chooses ns options n) :
    ∃ t ∈ p.fragment.mandatory, (⟨n⟩ : Var) ∈ t.vars := by
  obtain ⟨a, a', ha, hshared, hwithin, hcompile⟩ := compileParts_ready h hp
  exact Entity.compile_requires ⟨ha, hshared⟩ hwithin hcompile hn hrequires

/-- Where the triples that must be there have each name that the tests consult, a solution of the
WHERE clause has for all names of the tests the terms of the sub-select. -/
theorem agrees_on_tests (hE : E.CutsOnly) (hconstruct : c.compileConstruct ns config = .ok plan)
    (hown : c.HasOwnComputedNames) (hparts : plan.parts = before ++ p :: after)
    (hmoved : c.subselect? p = some (.subselect q))
    (hmandatory : ∀ name, p.Consults (before ++ after) name →
      ∃ t ∈ p.fragment.mandatory, varOf name ∈ t.vars)
    (hρ : ρ ∈ groupSolutions E G plan.query.body) :
    ∃ ν ∈ q.solutions E G, ρ.Extends ν ∧
      ∀ name ∈ p.entity.computedNames, ρ (varOf name) = ν (varOf name) := by
  have hapart := compileParts_computesApart (compileParts_of_construct hconstruct) hown
  obtain ⟨ν, hν, hextends, hagrees⟩ := agrees_with_moved hE hconstruct hparts hmoved hρ
  refine ⟨ν, hν, hextends, fun name hname => ?_⟩
  cases hvalue : ν (varOf name) with
  | some x => exact hextends _ _ hvalue
  | none =>
      -- a name that the sub-select leaves open is one that no other entity binds
      rw [← hvalue]
      refine hagrees _ fun other hother hbound => ?_
      rcases Fragment.mem_scope_patterns.mp hbound with hmentions | hcomputed
      · obtain ⟨t, ht, hv⟩ := hmandatory name ⟨hname, other, hother, hmentions⟩
        have hsome := isSome_of_moved hE hmoved hν ht hv
        rw [hvalue] at hsome
        cases hsome
      · have hp : p ∈ plan.parts := by simp [hparts]
        have hpart : other ∈ plan.parts := by
          rw [hparts]
          exact List.mem_append.mpr ((List.mem_append.mp hother).imp_right (List.mem_cons_of_mem _))
        obtain ⟨b, hb, heq⟩ := List.mem_map.mp hcomputed
        exact hapart.unwritten other hpart b hb (heq ▸ hapart.names p hp name hname)

/-- **Tests in sub-selects.**  Let an entity that is moved into a sub-select itself require each
name of another entity that its tests consult.  Then the sub-select shows these names, with a term
in each of its solutions, and the WHERE clause has the same terms for them.  If no computed key
asks for a written name, that is so for all names of the tests, and each computed key of the entity
has the value that its test has under the whole solution, as in the SELECT of the collection. -/
theorem subselect_sees_shared {select : SelectPlan}
    (hselect : c.compileSelect ns config = .ok select)
    (hconstruct : c.compileConstruct ns config = .ok plan)
    (hparts : plan.parts = before ++ p :: after) (hmoved : c.subselect? p = some (.subselect q))
    (hrequires : ∀ name, p.Consults (before ++ after) name →
      p.entity.Requires c.Chooses ns {} (nameOf name)) :
    (∀ name, p.Consults (before ++ after) name → varOf name ∈ q.scope) ∧
    ∀ E : Engine, E.CutsOnly → ∀ G,
      (∀ ν ∈ q.solutions E G, ∀ name, p.Consults (before ++ after) name →
        (ν (varOf name)).isSome) ∧
      (∀ ρ ∈ groupSolutions E G plan.query.body, ∃ ν ∈ q.solutions E G, ρ.Extends ν ∧
        ∀ name, p.Consults (before ++ after) name → ρ (varOf name) = ν (varOf name)) ∧
      (c.HasOwnComputedNames →
        (∀ ρ ∈ groupSolutions E G plan.query.body, ∃ ν ∈ q.solutions E G, ρ.Extends ν ∧
          ∀ name ∈ p.entity.computedNames, ρ (varOf name) = ν (varOf name)) ∧
        ∀ b ∈ p.fragment.binds,
          (∀ μ ∈ groupSolutions E G select.query.body, μ b.2 = b.1.value? E G μ) ∧
          ∀ ρ ∈ groupSolutions E G plan.query.body, ρ b.2 = b.1.value? E G ρ) := by
  have hcompiled := compileParts_of_construct hconstruct
  have hp : p ∈ plan.parts := by simp [hparts]
  have hmandatory : ∀ name, p.Consults (before ++ after) name →
      ∃ t ∈ p.fragment.mandatory, varOf name ∈ t.vars := by
    intro name hconsults
    have hchosen := chooses_of_computed (entity_mem_of_parts hcompiled hp) hconsults.tested
    exact mandatory_of_requires hcompiled hp hchosen (hrequires name hconsults)
  refine ⟨fun name hconsults => ?_, fun E hE G => ?_⟩
  · obtain ⟨t, ht, hv⟩ := hmandatory name hconsults
    have hscope : varOf name ∈ groupScope p.fragment.patterns :=
      Fragment.mem_scope_patterns.mpr (.inl ⟨t, List.mem_append_left _ ht, hv⟩)
    simpa [Pattern.scope] using (mem_scope_subselect hmoved).mpr hscope
  have hbound : ∀ ν ∈ q.solutions E G, ∀ name, p.Consults (before ++ after) name →
      (ν (varOf name)).isSome := by
    intro ν hν name hconsults
    obtain ⟨t, ht, hv⟩ := hmandatory name hconsults
    exact isSome_of_moved hE hmoved hν ht hv
  refine ⟨hbound, fun ρ hρ => ?_, fun hown => ?_⟩
  · obtain ⟨ν, hν, hextends, -⟩ := agrees_with_moved hE hconstruct hparts hmoved hρ
    refine ⟨ν, hν, hextends, fun name hconsults => ?_⟩
    obtain ⟨x, hx⟩ := Option.isSome_iff_exists.mp (hbound ν hν name hconsults)
    exact (hextends _ _ hx).trans hx.symm
  have hapart := compileParts_computesApart hcompiled hown
  refine ⟨fun ρ hρ => agrees_on_tests hE hconstruct hown hparts hmoved hmandatory hρ,
    fun b hb => ⟨fun μ hμ => ?_, fun ρ hρ => ?_⟩⟩
  · obtain ⟨parts, hsame, rfl⟩ := compileSelectWith_cases hselect
    obtain rfl : parts = plan.parts := Except.ok.inj (hsame.symm.trans hcompiled)
    exact hapart.value hE hμ hp (service_of_moved hmoved) hb
  · obtain ⟨ν, hν, hextends, hsame⟩ :=
      agrees_on_tests hE hconstruct hown hparts hmoved hmandatory hρ
    have hvalue := value_of_moved hE hapart hp hmoved hν hb
    obtain ⟨x, hx⟩ := Option.isSome_iff_exists.mp (hapart.test_isSome hp hb G ν)
    have hread : b.1.value? E G ρ = b.1.value? E G ν := by
      refine hapart.reads hp hb G ρ ν ?_
      rintro _ ⟨name, hname, rfl⟩
      exact hsame name hname
    rw [hread, hx]
    exact hextends _ _ (hvalue.trans hx)

/-! ## Things and their makers -/

/-- A person of the name ?p. -/
def maker : Entity where
  index := 1
  schema := { targetClass := some "ex:Person" }
  conditions := [("@id", .shared "p")]

/-- A thing, the first one found, of which it is asked whether the person of the name ?p made it;
the person may be known by a key of the thing. -/
def madeThing (known : List (String × Condition)) : Entity where
  index := 0
  schema :=
    { targetClass := some "ex:Thing"
      context := [("maker", .str "ex:maker")]
      properties := [("maker", { format := some "iri" })] }
  conditions := known ++ [("made", .computed .exist [⟨"?p", "ex:made", "?eIri0"⟩])]
  selection := some ["@id"]
  limit := some 1

/-- A thing that knows its maker, and one that does not. -/
def knownMaker : Collection where
  entities := [madeThing [("maker", .shared "p")], maker]

def hiddenMaker : Collection where
  entities := [madeThing [], maker]

/-- A fragment that asks for persons mentions the variable of the person. -/
theorem mentions_of_person {f : Fragment}
    (h : f.mandatory = [exactType (.var ⟨"p"⟩) "http://example.org/Person"]) :
    f.Mentions (varOf "p") :=
  ⟨_, List.mem_append_left _ (h ▸ List.mem_cons_self), by decide⟩

/-- Where the person is the known maker of the thing, both queries ask whether that person made
it. -/
theorem subselect_sees_shared_knownMaker :
    ∃ select plan p other q b, knownMaker.compileSelect .exampleOrg {} = .ok select ∧
      knownMaker.compileConstruct .exampleOrg {} = .ok plan ∧ plan.parts = [p, other] ∧
      knownMaker.subselect? p = some (.subselect q) ∧ p.Consults [other] "p" ∧
      p.fragment.binds = [b] ∧ knownMaker.HasOwnComputedNames ∧ varOf "p" ∈ q.scope ∧
      ∀ E : Engine, E.CutsOnly → ∀ G,
        (∀ ν ∈ q.solutions E G, (ν (varOf "p")).isSome) ∧
        (∀ μ ∈ groupSolutions E G select.query.body, μ b.2 = b.1.value? E G μ) ∧
        ∀ ρ ∈ groupSolutions E G plan.query.body, ρ b.2 = b.1.value? E G ρ := by
  have hown : knownMaker.HasOwnComputedNames := by
    intro e he key relation triples hentry ⟨name, hname, heq⟩
    have hwritten : ∀ e ∈ knownMaker.entities, ∀ entry ∈ e.conditions, entry.2.isComputed = true →
        ∀ name ∈ knownMaker.writtenNames, nameOf (entry.1 ++ toString e.index) ≠ nameOf name := by
      decide
    exact hwritten e he _ hentry rfl name hname heq
  have hnames : (madeThing [("maker", .shared "p")]).computedNames = ["p", "eIri0"] := rfl
  have hrequires : ∀ name ∈ ["p", "eIri0"],
      (madeThing [("maker", .shared "p")]).Requires knownMaker.Chooses .exampleOrg {}
        (nameOf name) := by
    have hneeds : (madeThing [("maker", .shared "p")]).Needs knownMaker.Chooses .exampleOrg {}
        "maker" ⟨"http://example.org/maker", false⟩ :=
      .narrowed rfl rfl rfl fun h => absurd h.selected (by decide)
    intro name hname
    simp only [List.mem_cons, List.not_mem_nil, or_false] at hname
    rcases hname with rfl | rfl
    · exact .key hneeds
    · exact .subject rfl (.inr (.inl rfl))
  obtain ⟨select, hselect⟩ : ∃ select, knownMaker.compileSelect .exampleOrg {} = .ok select :=
    ⟨_, rfl⟩
  obtain ⟨plan, p, other, q, b, hconstruct, hparts, hmoved, hentity, hbinds, hmandatory⟩ :
      ∃ plan p other q b, knownMaker.compileConstruct .exampleOrg {} = .ok plan ∧
        plan.parts = [] ++ p :: [other] ∧ knownMaker.subselect? p = some (.subselect q) ∧
        p.entity = madeThing [("maker", .shared "p")] ∧ p.fragment.binds = [b] ∧
        other.fragment.mandatory = [exactType (.var ⟨"p"⟩) "http://example.org/Person"] :=
    ⟨_, _, _, _, _, rfl, rfl, rfl, rfl, rfl, rfl⟩
  have hconsults : p.Consults [other] "p" :=
    ⟨by rw [hentity]; decide, other, List.mem_cons_self, mentions_of_person hmandatory⟩
  have hsees := subselect_sees_shared hselect hconstruct hparts hmoved fun name hname =>
    hentity ▸ hrequires name (hnames ▸ hentity ▸ hname.tested)
  refine ⟨select, plan, p, other, q, b, hselect, hconstruct, hparts, hmoved, hconsults, hbinds,
    hown, hsees.1 "p" hconsults, fun E hE G => ?_⟩
  obtain ⟨hbound, -, hvalues⟩ := hsees.2 E hE G
  exact ⟨fun ν hν => hbound ν hν "p" hconsults, (hvalues hown).2 b (by simp [hbinds])⟩

/-- One thing, which a machine made, and one person. -/
def foundThing : Rdf.Graph :=
  {st | st ∈ [.ofIris "urn:thing" Vocabulary.rdfType "http://example.org/Thing",
    .ofIris "urn:person" Vocabulary.rdfType "http://example.org/Person",
    .ofIris "urn:machine" "http://example.org/made" "urn:thing"]}

/-- The solution for things. -/
def thingFound : Solution :=
  fun v => if v = ⟨"eIri0"⟩ then some (.iri "urn:thing") else none

/-- The solution for persons. -/
def personFound : Solution :=
  fun v => if v = ⟨"p"⟩ then some (.iri "urn:person") else none

/-- The test of the computed key of things. -/
def madeTest : Expression :=
  .exist [.triples [⟨.var ⟨"p"⟩, .iri "http://example.org/made", .var ⟨"eIri0"⟩⟩]]

section

variable {E : Engine}

/-- The restriction to a class has one variable, which is its subject. -/
theorem mem_vars_exactType {x v : Var} {class_ : String} :
    v ∈ (exactType (.var x) class_).vars ↔ v = x := by
  simp [exactType, Triple.ofType, Triple.mem_vars, eq_comm]

/-- An instance of a class matches the restriction to the class. -/
theorem matches_exactType {G : Rdf.Graph} {v : Var} {iri class_ : String} {μ : Solution}
    (hst : .ofIris iri Vocabulary.rdfType class_ ∈ G) (hμ : μ v = some (.iri iri))
    (σ : String → Rdf.Term) : (exactType (.var v) class_).Matches G σ μ :=
  Triple.matches_iri_iff.mpr ⟨_, _, hμ, rfl, _, hst, rfl, rfl, rfl⟩

/-- The graph has a thing. -/
theorem thingFound_mem : thingFound ∈
    Sparql.blockSolutions foundThing [exactType (.var ⟨"eIri0"⟩) "http://example.org/Thing"] := by
  refine ⟨fun v => ?_, fun _ => default,
    List.forall_mem_singleton.mpr (matches_exactType (.head _) rfl _)⟩
  simp [thingFound, mem_vars_exactType]

/-- The graph has a person. -/
theorem personFound_mem : personFound ∈
    Sparql.blockSolutions foundThing [exactType (.var ⟨"p"⟩) "http://example.org/Person"] := by
  refine ⟨fun v => ?_, fun _ => default,
    List.forall_mem_singleton.mpr (matches_exactType (.tail _ (.head _)) rfl _)⟩
  simp [personFound, mem_vars_exactType]

/-- The thing and the person are found together. -/
theorem bothFound_mem : thingFound.merge personFound ∈ Sparql.blockSolutions foundThing
    [exactType (.var ⟨"eIri0"⟩) "http://example.org/Thing",
      exactType (.var ⟨"p"⟩) "http://example.org/Person"] := by
  refine ⟨fun v => ?_, fun _ => default, List.forall_mem_cons.mpr
    ⟨matches_exactType (.head _) rfl _,
      List.forall_mem_singleton.mpr (matches_exactType (.tail _ (.head _)) rfl _)⟩⟩
  simp [Solution.merge, thingFound, personFound, mem_vars_exactType]

/-- The machine is the only maker in the graph, and the thing all that is made. -/
theorem links_made_iff {a b : Rdf.Term} : foundThing.Links "http://example.org/made" a b ↔
    a = .iri "urn:machine" ∧ b = .iri "urn:thing" := by
  have hpredicate : Vocabulary.rdfType ≠ "http://example.org/made" := by decide
  simp [Rdf.Graph.Links, foundThing, Rdf.Statement.ofIris, hpredicate, eq_comm]

/-- Where the person is not known, the test finds the machine. -/
theorem madeTest_alone :
    madeTest.value? E foundThing thingFound = some (.ofBool true) := by
  refine Expression.exist_value (iff_of_true ?_ rfl)
  refine (Sparql.exists_completes_link (by decide)).mpr
    ⟨_, _, links_made_iff.mpr ⟨rfl, rfl⟩, nofun, fun z hz => ?_⟩
  exact (Option.some.inj hz).symm

/-- Together the two solutions see that the machine has made the thing, so that the negated test
fails of them. -/
theorem madeTest_together :
    madeTest.value? E foundThing (thingFound.merge personFound) = some (.ofBool false) := by
  refine Expression.exist_value (iff_of_false (fun h => ?_) nofun)
  obtain ⟨a, b, hlinks, ha, -⟩ := (Sparql.exists_completes_link (by decide)).mp h
  obtain ⟨rfl, -⟩ := links_made_iff.mp hlinks
  exact absurd (ha (.iri "urn:person") rfl) (by decide)

end

/-- The person did not make the thing, and that is the answer of the SELECT.  The sub-select of
the CONSTRUCT does not see the person: there the answer is that somebody made it. -/
theorem maker_out_of_sight :
    ∃ select plan p other q, hiddenMaker.compileSelect .exampleOrg {} = .ok select ∧
      hiddenMaker.compileConstruct .exampleOrg {} = .ok plan ∧ plan.parts = [p, other] ∧
      hiddenMaker.subselect? p = some (.subselect q) ∧ p.Consults [other] "p" ∧
      varOf "p" ∉ q.scope ∧ Engine.byIdentity.CutsOnly ∧
      ∃ μ ∈ groupSolutions .byIdentity foundThing select.query.body,
        ∃ ρ ∈ groupSolutions .byIdentity foundThing plan.query.body,
          (∀ v, v ≠ ⟨"made0"⟩ → μ v = ρ v) ∧ μ ⟨"made0"⟩ = some (.ofBool false) ∧
            ρ ⟨"made0"⟩ = some (.ofBool true) := by
  let made : Var := ⟨"made0"⟩
  let thing : Triple := exactType (.var ⟨"eIri0"⟩) "http://example.org/Thing"
  let person : Triple := exactType (.var ⟨"p"⟩) "http://example.org/Person"
  obtain ⟨select, hselect, hbody⟩ :
      ∃ select, hiddenMaker.compileSelect .exampleOrg {} = .ok select ∧
        select.query.body = [.triples [thing, person], .bind madeTest made] := ⟨_, rfl, rfl⟩
  obtain ⟨plan, p, other, q, hconstruct, hparts, hmoved, hentity, hmandatory, rfl, hgroup⟩ :
      ∃ plan p other q, hiddenMaker.compileConstruct .exampleOrg {} = .ok plan ∧
        plan.parts = [p, other] ∧ hiddenMaker.subselect? p = some (.subselect q) ∧
        p.entity = madeThing [] ∧
        other.fragment.mandatory = [person] ∧
        q = .of false [⟨"eIri0"⟩, made] [.triples [thing], .bind madeTest made]
          ⟨[], some 1, none⟩ ∧
        plan.query.body = [.subselect q, .triples [person]] :=
    ⟨_, _, _, _, rfl, rfl, rfl, rfl, rfl, rfl, rfl⟩
  have hcuts : Engine.byIdentity.CutsOnly := fun _ _ => subset_rfl
  have hscope : groupScope [.triples [thing], .bind madeTest made] ⊆ [⟨"eIri0"⟩, made] := by
    decide
  have hcompatible : (thingFound.set made (some (.ofBool true))).Compatible personFound := by
    intro v a b ha hb
    have hv : v = ⟨"p"⟩ := by
      by_contra hne
      simp [personFound, hne] at hb
    subst hv
    cases ha
  have hconsults : p.Consults [other] "p" :=
    ⟨by rw [hentity]; decide, other, List.mem_cons_self, mentions_of_person hmandatory⟩
  refine ⟨select, plan, p, other, _, hselect, hconstruct, hparts, hmoved, hconsults, ?_, hcuts,
    _, hbody ▸ Sparql.set_mem_groupSolutions bothFound_mem made madeTest_together,
    (thingFound.set made (some (.ofBool true))).merge personFound,
    hgroup ▸ ⟨?_, trivial, trivial, trivial⟩, fun v hv => ?_, rfl, rfl⟩
  · rw [Sparql.mem_scope_of hscope]
    decide
  · simp only [Sparql.extendAll, Pattern.extend, Sparql.join_empty]
    refine ⟨_, ?_, personFound, personFound_mem, hcompatible, rfl⟩
    rw [Sparql.solutions_of hcuts hscope]
    exact Sparql.set_mem_groupSolutions thingFound_mem made madeTest_alone
  · rw [Solution.set_of_ne hv, Solution.merge, Solution.merge, Solution.set_of_ne hv]

end Collection

end ObjectGraph
