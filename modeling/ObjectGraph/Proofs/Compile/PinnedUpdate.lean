import Mathlib.Order.BooleanAlgebra.Set
import ObjectGraph.Proofs.Compile.Coverage
import ObjectGraph.Proofs.Compile.Matches
import ObjectGraph.Proofs.Compile.Subject

/-!
# What the update of a fixed subject does to a graph

The update of a fixed subject has no filter, and asks for the old values of each data
key in a pattern of its own that may be missing, on a variable of its own
(`Matches.oldValues_fresh`).  So its solutions cover the old values, and its DELETE
template becomes the statements of the data keys, all of them and no others
(`diff_instances`).  The INSERT template has no variable and becomes the same under
every solution (`instances_storedData`).
-/

namespace ObjectGraph

open Json (Value)
open Sparql (Var Term Triple Expression Pattern Operation Solution Engine)

/-- The statement that gives a resource a type. -/
def Rdf.Statement.typing (resource type : String) : Rdf.Statement :=
  ⟨.iri resource, Vocabulary.rdfType, .iri type, rfl⟩

/-- Every value is the same term in all solutions. -/
theorem Encode.value_ground (ns : Namespaces) (kind : Kind) (v : Value) :
    ∃ x, (Encode.value ns kind v).ground? = some x := by
  obtain ⟨i, h⟩ | ⟨l, h⟩ := Encode.value_cases ns kind v <;> rw [h] <;> exact ⟨_, rfl⟩

namespace Entity

variable {ns : Namespaces} {e : Entity} {E : Engine} {G : Rdf.Graph} {S : String}

/-- Without shared names, each data key has its old values under a variable of its own,
in a pattern that may be missing. -/
theorem Matches.oldValues_fresh (subject : Term) (data : List (String × Mapping × Value))
    {m : Matches} (hvars : m.vars = []) (hshared : m.alloc.shared = []) :
    ∃ ps : List (Mapping × Var),
      ps.map Prod.fst = data.map (·.2.1) ∧ (ps.map Prod.snd).Nodup ∧
      (∀ p ∈ ps, p.2.name ∉ m.alloc.used) ∧
      (m.oldValues e subject data).1 = ps.map (fun p => p.1.triple subject (.var p.2)) ∧
      (m.oldValues e subject data).2.optional =
        m.optional ++ ps.map (fun p => p.1.triple subject (.var p.2)) ∧
      (m.oldValues e subject data).2.filters = m.filters := by
  induction data generalizing m with
  | nil => exact ⟨[], rfl, List.nodup_nil, by simp, rfl, by simp [oldValues], rfl⟩
  | cons d rest ih =>
      obtain ⟨key, mapping, v⟩ := d
      let base := Allocator.nameOf (key ++ toString e.index)
      let x := (m.alloc.fresh base).1
      let m' : Matches :=
        { m with
          alloc := (m.alloc.fresh base).2
          optional := m.optional ++ [mapping.triple subject (.var x)] }
      have hjoin : m.alloc.join (key ++ toString e.index) = m.alloc.fresh base := by
        rcases m.alloc.join_cases (key ++ toString e.index) with ⟨hmem, _⟩ | ⟨_, heq⟩
        · rw [hshared] at hmem
          cases hmem
        · exact heq
      have hvalue : m.oldValue e subject key mapping = (x, m') := by
        have hnone : Assoc.get? m.vars key = none := by rw [hvars]; rfl
        simp only [oldValue, hnone, hjoin]
        rfl
      obtain ⟨ps, hmap, hnodup, hfree, hdelete, hoptional, hfilters⟩ :=
        ih (m := m') hvars hshared
      have hnew : x ∉ ps.map Prod.snd := by
        intro hmem
        obtain ⟨p, hp, hpx⟩ := List.mem_map.mp hmem
        exact hfree p hp (hpx ▸ List.mem_cons_self)
      refine ⟨(mapping, x) :: ps, by simp [hmap], List.nodup_cons.mpr ⟨hnew, hnodup⟩,
        ?_, ?_, ?_, ?_⟩
      · intro p hp
        rcases List.mem_cons.mp hp with rfl | hp
        · exact m.alloc.fresh_not_mem base
        · exact fun hmem => hfree p hp (List.mem_cons_of_mem _ hmem)
      · simp [oldValues, hvalue, hdelete]
      · simp [oldValues, hvalue, hoptional, m']
      · simpa [oldValues, hvalue] using hfilters

/-- The update of a fixed subject deletes what its optional patterns match. -/
theorem compileUpdate_of_pin (hpin : e.pin? ns = some S) {a : Allocator}
    (hshared : a.shared = []) :
    ∃ ps : List (Mapping × Var), ∃ a',
      ps.map Prod.fst = (e.storedData ns).map (·.2.1) ∧ (ps.map Prod.snd).Nodup ∧
      e.compileUpdate ns a =
        .ok (.modify (ps.map fun p => p.1.triple (.iri S) (.var p.2))
          ((e.storedData ns).flatMap (e.dataTriples ns (.iri S)))
          (updateGroup ((e.class? ns).toList.map (exactType (.iri S)))
            (ps.map fun p => p.1.triple (.iri S) (.var p.2)) []), a') := by
  obtain ⟨ps, hmap, hnodup, _, hdelete, hoptional, hfilters⟩ :=
    Matches.oldValues_fresh (e := e) (.iri S) (e.storedData ns)
      (m := { alloc := a }) rfl hshared
  refine ⟨ps, (Matches.oldValues e (.iri S) { alloc := a } (e.storedData ns)).2.alloc,
    hmap, hnodup, ?_⟩
  simp only [compileUpdate, subjectTerm_of_pin hpin, bind, Except.bind, Term.asVar?,
    Option.isSome_none, Bool.false_eq_true, if_false, List.foldl_nil, hdelete, hoptional,
    hfilters, List.nil_append]
  rfl

/-- The class of a fixed subject is there or it is not; no variable is bound. -/
theorem blockSolutions_exactType (G : Rdf.Graph) (S : String) (class_ : Option String) :
    Sparql.blockSolutions G (class_.toList.map (exactType (.iri S))) =
      {μ | μ = .empty ∧ ∀ C, class_ = some C → .typing S C ∈ G} := by
  have hvars : (class_.toList.map (exactType (.iri S))).flatMap Triple.vars = [] := by
    cases class_ <;> rfl
  ext μ
  simp only [Sparql.blockSolutions, Set.mem_ofPred_eq, hvars, List.not_mem_nil, iff_false,
    Bool.not_eq_true, Option.isSome_eq_false_iff, Option.isNone_iff_eq_none]
  refine and_congr (funext_iff (f := μ) (g := Solution.empty)).symm ?_
  cases class_ with
  | none => simp
  | some C =>
      simp only [Option.toList_some, List.map_cons, List.map_nil, List.mem_singleton,
        forall_eq, Option.some.injEq, forall_eq']
      constructor
      · rintro ⟨σ, s, hs, hsubject, hobject, hpredicate⟩
        have heq : s = .typing S C :=
          Rdf.Statement.ext (Option.some.inj hsubject).symm hpredicate
            (Option.some.inj hobject).symm
        exact heq ▸ hs
      · intro hs
        exact ⟨fun _ => .iri S, _, hs, rfl, rfl, rfl⟩

/-- The group of an update has those solutions of its patterns that pass its filters. -/
theorem mem_groupSolutions_updateGroup {required optional : List Triple}
    {filters : List Expression} {μ : Solution} :
    μ ∈ Sparql.groupSolutions E G (updateGroup required optional filters) ↔
      μ ∈ Sparql.extendAll E G (optional.map .optionalTriple) (Sparql.blockSolutions G required) ∧
        ∀ g ∈ filters, g.IsTrue E G μ := by
  have hfilters : ∀ Ω, Sparql.extendAll E G (filters.map .filter) Ω = Ω := by
    intro Ω
    induction filters with
    | nil => rfl
    | cons g rest ih =>
        rw [List.map_cons, Sparql.extendAll, Pattern.extend]
        exact ih
  have hbody : Sparql.extendAll E G (updateGroup required optional filters) {.empty} =
      Sparql.extendAll E G (optional.map .optionalTriple) (Sparql.blockSolutions G required) := by
    rw [updateGroup, List.cons_append, Sparql.extendAll, Sparql.extendAll_append, hfilters,
      Pattern.extend, Sparql.join_empty]
  have htest : Sparql.testAll E G μ (updateGroup required optional filters) ↔
      ∀ g ∈ filters, g.IsTrue E G μ := by
    simp only [Sparql.testAll_iff, updateGroup, List.cons_append, List.forall_mem_cons,
      List.forall_mem_append, List.forall_mem_map]
    refine ⟨fun h => h.2.2, fun h => ⟨trivial, fun _ _ => trivial, h⟩⟩
  rw [Sparql.groupSolutions, Set.mem_ofPred_eq, hbody, htest]

/-- The group of an update without filters has the solutions of its patterns. -/
theorem groupSolutions_updateGroup (required optional : List Triple) :
    Sparql.groupSolutions E G (updateGroup required optional []) =
      Sparql.extendAll E G (optional.map .optionalTriple) (Sparql.blockSolutions G required) := by
  ext μ
  rw [mem_groupSolutions_updateGroup]
  exact and_iff_left nofun

/-- A statement gives the subject an item of a data entry as a value. -/
def Holds (ns : Namespaces) (e : Entity) (x : Rdf.Term) (d : String × Mapping × Value)
    (v : Value) (s : Rdf.Statement) : Prop :=
  d.2.1.Touches x s ∧
    (Encode.value ns (e.schema.kindOf d.1) v).ground? = some (d.2.1.other s)

/-- The triples of the data become a statement for each item, about what the subject is. -/
theorem instances_dataTriples (subject : Term) (Ω : Set Solution) :
    Sparql.instances E ((e.storedData ns).flatMap (e.dataTriples ns subject)) Ω =
      {s | ∃ μ ∈ Ω, ∃ r, subject.value? (E.fresh μ) μ = some r ∧
        ∃ d ∈ e.storedData ns, ∃ v ∈ d.2.2.itemsOrSelf,
          v.isNull = false ∧ e.Holds ns r d v s} := by
  have hdenotes : ∀ (d : String × Mapping × Value) (v : Value) (σ : String → Rdf.Term)
      (μ : Solution) (s : Rdf.Statement),
      (d.2.1.triple subject (Encode.value ns (e.schema.kindOf d.1) v)).Denotes σ μ s ↔
        ∃ r, subject.value? σ μ = some r ∧ e.Holds ns r d v s := by
    intro d v σ μ s
    obtain ⟨x, hx⟩ := Encode.value_ground ns (e.schema.kindOf d.1) v
    simp only [Mapping.denotes_triple, Sparql.Term.value?_of_ground hx, Holds, hx,
      Mapping.Touches]
    constructor
    · rintro ⟨hiri, howner, hother⟩
      exact ⟨_, howner, ⟨hiri, rfl⟩, hother⟩
    · rintro ⟨r, hr, ⟨hiri, rfl⟩, hother⟩
      exact ⟨hiri, hr, hother⟩
  ext s
  constructor
  · rintro ⟨μ, hμ, t, ht, hs⟩
    obtain ⟨d, hd, ht⟩ := List.mem_flatMap.mp ht
    obtain ⟨u, hu, rfl⟩ := List.mem_map.mp ht
    obtain ⟨v, hv, rfl⟩ := List.mem_map.mp hu
    obtain ⟨hv, hnull⟩ := List.mem_filter.mp hv
    obtain ⟨r, hr, hholds⟩ := (hdenotes d v _ μ s).mp hs
    exact ⟨μ, hμ, r, hr, d, hd, v, hv, by simpa using hnull, hholds⟩
  · rintro ⟨μ, hμ, r, hr, d, hd, v, hv, hnull, hs⟩
    refine ⟨μ, hμ, _, List.mem_flatMap.mpr ⟨d, hd, List.mem_map_of_mem ?_⟩,
      (hdenotes d v _ μ s).mpr ⟨r, hr, hs⟩⟩
    exact List.mem_map_of_mem (List.mem_filter.mpr ⟨hv, by simp [hnull]⟩)

/-- The triples of the data become the same statements under every solution. -/
theorem instances_storedData {Ω : Set Solution} (hΩ : Ω.Nonempty) :
    Sparql.instances E ((e.storedData ns).flatMap (e.dataTriples ns (.iri S))) Ω =
      {s | ∃ d ∈ e.storedData ns, ∃ v ∈ d.2.2.itemsOrSelf,
        v.isNull = false ∧ e.Holds ns (.iri S) d v s} := by
  rw [instances_dataTriples]
  ext s
  constructor
  · rintro ⟨μ, -, r, hr, hs⟩
    obtain rfl := Option.some.inj hr
    exact hs
  · intro hs
    obtain ⟨μ, hμ⟩ := hΩ
    exact ⟨μ, hμ, _, rfl, hs⟩

/-- What covers the old values takes them out of the graph, and nothing else. -/
theorem diff_instances {ps : List (Mapping × Var)} {data : List (String × Mapping × Value)}
    (hmap : ps.map Prod.fst = data.map (·.2.1)) {Ω : Set Solution}
    (h : Covers G (.iri S) ps Ω) :
    G \ Sparql.instances E (ps.map fun p => p.1.triple (.iri S) (.var p.2)) Ω =
      G \ {s | ∃ d ∈ data, d.2.1.Touches (.iri S) s} := by
  ext s
  refine and_congr_right fun hs => not_congr ⟨?_, ?_⟩
  · rintro ⟨μ, _, t, ht, hdenotes⟩
    obtain ⟨p, hp, rfl⟩ := List.mem_map.mp ht
    obtain ⟨hpredicate, howner, _⟩ := Mapping.denotes_triple.mp hdenotes
    have hmem : p.1 ∈ data.map (·.2.1) := hmap ▸ List.mem_map_of_mem hp
    obtain ⟨d, hd, hdp⟩ := List.mem_map.mp hmem
    exact ⟨d, hd, hdp ▸ ⟨hpredicate, (Option.some.inj howner).symm⟩⟩
  · rintro ⟨d, hd, htouches⟩
    have hmem : d.2.1 ∈ ps.map Prod.fst := hmap ▸ List.mem_map_of_mem hd
    obtain ⟨p, hp, hpd⟩ := List.mem_map.mp hmem
    rw [← hpd] at htouches
    obtain ⟨μ, hμ, hvalue⟩ := h.complete p hp s hs htouches
    refine ⟨μ, hμ, _, List.mem_map_of_mem hp, Mapping.denotes_triple.mpr ?_⟩
    exact ⟨htouches.1, congrArg some htouches.2.symm, hvalue⟩

/-- An item of the data is in one statement. -/
theorem existsUnique_holds {x : Rdf.Term} (hx : x.isLiteral = false)
    (d : String × Mapping × Value) (v : Value)
    (hreverse : d.2.1.reverse = true →
      ∃ i, Encode.value ns (e.schema.kindOf d.1) v = .iri i) :
    ∃! s, e.Holds ns x d v s := by
  obtain ⟨y, hy⟩ := Encode.value_ground ns (e.schema.kindOf d.1) v
  obtain ⟨s, htouches, hother⟩ := d.2.1.exists_touches hx (y := y) (by
    intro hr
    obtain ⟨i, hi⟩ := hreverse hr
    rw [hi] at hy
    obtain rfl := Option.some.inj hy
    rfl)
  refine ⟨s, ⟨htouches, hother ▸ hy⟩, ?_⟩
  intro s' ⟨htouches', hother'⟩
  refine htouches'.unique htouches ?_
  rw [hother]
  exact Option.some.inj (hother'.symm.trans hy)

end Entity

namespace Collection

open Entity

variable {ns : Namespaces} {c : Collection} {e : Entity} {S : String}

/-- **The update of a fixed subject.**  It does nothing if the subject is not of the
class of the entity.  Otherwise it takes out the statements that the data keys have about
the subject, and puts in one for each item of the data that is not null. -/
theorem compileUpdate_replaces (hsingle : c.entities = [e]) (hpin : e.pin? ns = some S)
    (hreverse : ∀ d ∈ e.storedData ns, d.2.1.reverse = true → ∀ v ∈ d.2.2.itemsOrSelf,
      v.isNull = false → ∃ i, Encode.value ns (e.schema.kindOf d.1) v = .iri i) :
    ∃ update, c.compileUpdate ns = .ok update ∧
      (∀ (E : Engine) (G : Rdf.Graph),
        ((∃ C, e.class? ns = some C ∧ .typing S C ∉ G) → Sparql.Update.run E G update = G) ∧
        ((∀ C, e.class? ns = some C → .typing S C ∈ G) → Sparql.Update.run E G update =
          (G \ {s | ∃ d ∈ e.storedData ns, d.2.1.Touches (.iri S) s}) ∪
            {s | ∃ d ∈ e.storedData ns, ∃ v ∈ d.2.2.itemsOrSelf,
              v.isNull = false ∧ e.Holds ns (.iri S) d v s})) ∧
      ∀ d ∈ e.storedData ns, ∀ v ∈ d.2.2.itemsOrSelf, v.isNull = false →
        ∃! s, e.Holds ns (.iri S) d v s := by
  obtain ⟨ps, a', hmap, hnodup, hop⟩ := compileUpdate_of_pin hpin (a := .empty) rfl
  refine ⟨_, by rw [compileUpdate, hsingle, operations, hop]; rfl, ?_, ?_⟩
  · intro E G
    simp only [Sparql.Update.run, List.foldl_cons, List.foldl_nil, Operation.run,
      groupSolutions_updateGroup, blockSolutions_exactType]
    constructor
    · rintro ⟨C, hC, hnot⟩
      have hnone : {μ : Solution | μ = .empty ∧ ∀ C, e.class? ns = some C → .typing S C ∈ G} =
          ∅ := by
        ext μ
        exact ⟨fun h => (hnot (h.2 C hC)).elim, fun h => h.elim⟩
      rw [hnone, Sparql.extendAll_empty, Sparql.instances_empty, Sparql.instances_empty,
        Set.sdiff_empty, Set.union_empty]
    · intro hclass
      have hone : {μ : Solution | μ = .empty ∧ ∀ C, e.class? ns = some C → .typing S C ∈ G} =
          {.empty} := by
        ext μ
        exact and_iff_left hclass
      have hcovers : Covers G (.iri S) ps (Sparql.extendAll E G
          ((ps.map fun p => p.1.triple (.iri S) (.var p.2)).map .optionalTriple) {.empty}) := by
        rw [List.map_map]
        exact (Covers.empty G (.iri S)).run ps hnodup
      rw [hone, diff_instances hmap hcovers, instances_storedData hcovers.nonempty]
  · intro d hd v hv hnull
    exact existsUnique_holds rfl d v fun hr => hreverse d hd hr v hv hnull

/-- A thing gets a new name and a new place, and its note goes. -/
def movedThing : Entity where
  index := 0
  schema :=
    { targetClass := some "ex:Thing"
      context := [("name", .str "ex:name"), ("note", .str "ex:note"),
        ("place", .obj [("@reverse", .str "ex:holds")])]
      properties := [("name", { type := some "string" }), ("note", { type := some "string" }),
        ("place", { format := some "iri" })] }
  data := [("@id", .str "ex:t1"), ("name", .str "new"), ("note", .null),
    ("place", .str "ex:shelf")]

/-- What the data of the thing does not mention stays as it is. -/
theorem compileUpdate_replaces_movedThing :
    let t : Rdf.Term := .iri "http://example.org/t1"
    let text (s : String) : Rdf.Term := .literal s Vocabulary.xsdString none
    let class_ : Rdf.Statement := .typing "http://example.org/t1" "http://example.org/Thing"
    let size : Rdf.Statement := ⟨t, "http://example.org/size", text "small", rfl⟩
    let name (s : String) : Rdf.Statement := ⟨t, "http://example.org/name", text s, rfl⟩
    let note (s : String) : Rdf.Statement := ⟨t, "http://example.org/note", text s, rfl⟩
    let held (place : String) : Rdf.Statement := ⟨.iri place, "http://example.org/holds", t, rfl⟩
    ∃ update, (single movedThing).compileUpdate .exampleOrg = .ok update ∧
      ∀ E, Sparql.Update.run E
          {class_, size, name "old", name "older", note "gone", held "http://example.org/box"}
          update =
        {class_, size, name "new", held "http://example.org/shelf"} := by
  intro t text class_ size name note held
  have hdata : movedThing.storedData .exampleOrg =
      [("name", ⟨"http://example.org/name", false⟩, .str "new"),
        ("note", ⟨"http://example.org/note", false⟩, .null),
        ("place", ⟨"http://example.org/holds", true⟩, .str "ex:shelf")] := rfl
  have hold : ∀ s, (∃ d ∈ movedThing.storedData .exampleOrg, d.2.1.Touches t s) ↔
      (s.predicate = "http://example.org/name" ∧ s.subject = t) ∨
        (s.predicate = "http://example.org/note" ∧ s.subject = t) ∨
        (s.predicate = "http://example.org/holds" ∧ s.object = t) := by
    intro s
    rw [hdata]
    simp [Mapping.Touches, Mapping.owner]
  have hnew : ∀ s, (∃ d ∈ movedThing.storedData .exampleOrg, ∃ v ∈ d.2.2.itemsOrSelf,
      v.isNull = false ∧ movedThing.Holds .exampleOrg t d v s) ↔
      s = name "new" ∨ s = held "http://example.org/shelf" := by
    intro s
    rw [hdata]
    constructor
    · rintro ⟨d, hd, v, hv, hnull, htouches, hvalue⟩
      simp only [List.mem_cons, List.not_mem_nil, or_false] at hd
      rcases hd with rfl | rfl | rfl
      · obtain rfl := List.mem_singleton.mp hv
        exact .inl (htouches.unique ⟨rfl, rfl⟩ (Option.some.inj hvalue).symm)
      · obtain rfl := List.mem_singleton.mp hv
        cases hnull
      · obtain rfl := List.mem_singleton.mp hv
        exact .inr (htouches.unique ⟨rfl, rfl⟩ (Option.some.inj hvalue).symm)
    · rintro (rfl | rfl)
      · exact ⟨_, .head _, _, .head _, rfl, ⟨rfl, rfl⟩, rfl⟩
      · exact ⟨_, .tail _ (.tail _ (.head _)), _, .head _, rfl, ⟨rfl, rfl⟩, rfl⟩
  have hreverse : ∀ d ∈ movedThing.storedData .exampleOrg, d.2.1.reverse = true →
      ∀ v ∈ d.2.2.itemsOrSelf, v.isNull = false →
        ∃ i, Encode.value .exampleOrg (movedThing.schema.kindOf d.1) v = .iri i := by
    rw [hdata]
    intro d hd
    simp only [List.mem_cons, List.not_mem_nil, or_false] at hd
    rcases hd with rfl | rfl | rfl
    · exact nofun
    · exact nofun
    · intro _ v hv _
      obtain rfl := List.mem_singleton.mp hv
      exact ⟨_, rfl⟩
  have hpin : movedThing.pin? .exampleOrg = some "http://example.org/t1" := rfl
  obtain ⟨update, hupdate, hrun, _⟩ :=
    compileUpdate_replaces (c := single movedThing) rfl hpin hreverse
  refine ⟨update, hupdate, fun E => ?_⟩
  have hclass : movedThing.class? .exampleOrg = some "http://example.org/Thing" := rfl
  rw [(hrun E _).2 (by rw [hclass]; rintro C ⟨⟩; exact .inl rfl)]
  ext s
  simp only [Set.mem_union, Set.mem_sdiff, Set.mem_ofPred_eq]
  rw [hold, hnew]
  constructor
  · rintro (⟨hs, hkept⟩ | rfl | rfl)
    · rcases hs with rfl | rfl | rfl | rfl | rfl | rfl
      · exact .inl rfl
      · exact .inr (.inl rfl)
      · exact (hkept (.inl ⟨rfl, rfl⟩)).elim
      · exact (hkept (.inl ⟨rfl, rfl⟩)).elim
      · exact (hkept (.inr (.inl ⟨rfl, rfl⟩))).elim
      · exact (hkept (.inr (.inr ⟨rfl, rfl⟩))).elim
    · exact .inr (.inr (.inl rfl))
    · exact .inr (.inr (.inr rfl))
  · rintro (rfl | rfl | rfl | rfl)
    · exact .inl ⟨.inl rfl, by decide⟩
    · exact .inl ⟨.inr (.inl rfl), by decide⟩
    · exact .inr (.inl rfl)
    · exact .inr (.inr rfl)

end Collection

end ObjectGraph
