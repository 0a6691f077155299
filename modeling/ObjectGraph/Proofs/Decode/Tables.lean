import ObjectGraph.Proofs.Compile.Collisions
import ObjectGraph.Proofs.Compile.FollowUp
import ObjectGraph.Proofs.Decode.Cells

/-!
# Rows and graphs of a table

A collection of one tabular entity with a plain schema can be asked for by a SELECT and
by a CONSTRUCT.  The solutions of the one are read row by row, the graph that the same
solutions make of the other's template is grouped to nodes and written under a context,
and yet the objects are the same, in the same order (`graph_eq_solutions`).  Only the
members of an object come in another order: a graph puts identity and type in front
(`keywordsFirst`).

A prefix name that looks like a keyword and a condition that fixes a key without a
predicate are what keeps the two apart (`graph_ne_solutions`): contexts ignore the one,
and graphs do not carry the other.
-/

namespace ObjectGraph

open Json (Value Object)
open Sparql (Var)

/-- A collection of one tabular entity that has a class and shows its identity, over a
plain schema. -/
structure Collection.Tabular (ns : Namespaces) (e : Entity) (class_ : String)
    (c : Collection) : Prop where
  entities : c.entities = [e]
  unordered : c.orderBy = [] ∧ e.orderBy = []
  entity : e.Tabular ns
  identity : "@id" ∈ e.selectedKeys
  target : e.class? ns = some class_
  namespaces : ns.Stemmed
  schema : e.schema.Plain ns class_

namespace Collection.Tabular

variable {ns : Namespaces} {e : Entity} {class_ : String} {c : Collection}

/-- A tabular collection compiles to one part. -/
theorem exists_part (h : c.Tabular ns e class_) (config : Config) :
    ∃ f s, c.compileParts ns config {} = .ok [⟨e, f⟩] ∧ f.Table ns e s class_ := by
  have hwritten : e.writtenNames = [] := by
    refine List.flatMap_eq_nil_iff.mpr fun entry hentry => ?_
    have hunshared := h.entity.unshared entry hentry
    have huncomputed := h.entity.uncomputed entry hentry
    cases hcondition : entry.2 with
    | value | related => rfl
    | shared => simp [hcondition, Condition.sharedName?] at hunshared
    | computed => simp [hcondition, Condition.isComputed] at huncomputed
  have hshared : Entity.shareAll [e] .empty = .empty := by
    simp [Entity.shareAll_eq, hwritten]
  obtain ⟨f, a, s, hcompile, htable⟩ :=
    h.entity.compile h.identity h.target (a := .empty) rfl config {}
  refine ⟨f, s, ?_, htable⟩
  simp [Collection.compileParts, h.entities, hshared, Entity.compileEach, hcompile, bind,
    Except.bind]

/-- A SELECT and a CONSTRUCT are there and have the same part. -/
theorem exists_plans (h : c.Tabular ns e class_) (config : Config) :
    ∃ select construct f s, c.compileSelect ns config = .ok select ∧ select.parts = [⟨e, f⟩] ∧
      c.compileConstruct ns config = .ok construct ∧ construct.parts = [⟨e, f⟩] ∧
      construct.query.template = f.template ∧ f.Table ns e s class_ := by
  obtain ⟨f, s, hparts, htable⟩ := h.exists_part config
  obtain ⟨select, hselect, hselected⟩ := Collection.compileSelectWith_of_parts hparts
  obtain ⟨construct, hconstruct, hconstructed, htemplate⟩ :
      ∃ construct, c.compileConstruct ns config = .ok construct ∧ construct.parts = [⟨e, f⟩] ∧
        construct.query.template = f.template := by
    unfold Collection.compileConstruct
    rw [hparts]
    exact ⟨_, rfl, rfl, by simp⟩
  exact ⟨select, construct, f, s, hselect, hselected, hconstruct, hconstructed, htemplate, htable⟩

end Collection.Tabular

namespace Decode

variable {ns : Namespaces} {config : Config} {p : Part} {s : Var} {class_ : String} {row : Row}

/-! ## Objects up to the order of members -/

/-- An object with its identity and then its type in front. -/
def keywordsFirst (object : Object) : Object :=
  object.filter (·.1 == "@id") ++ object.filter (·.1 == "@type") ++
    object.filter (!Schema.isKeyword ·.1)

/-- Only the order of the members changes. -/
theorem keywordsFirst_perm (object : Object) : (keywordsFirst object).Perm object := by
  have hrest : (object.filter (·.1 == "@type") ++ object.filter (!Schema.isKeyword ·.1)).Perm
      (object.filter (!·.1 == "@id")) := by
    have hsplit := List.filter_append_perm (fun e : String × Value => e.1 == "@type")
      (object.filter (!·.1 == "@id"))
    have htype : (object.filter (!·.1 == "@id")).filter (·.1 == "@type") =
        object.filter (·.1 == "@type") := by
      rw [List.filter_filter]
      refine List.filter_congr fun e _ => ?_
      cases htype : e.1 == "@type" <;> simp_all
    have hother : (object.filter (!·.1 == "@id")).filter (!·.1 == "@type") =
        object.filter (!Schema.isKeyword ·.1) := by
      rw [List.filter_filter]
      refine List.filter_congr fun e _ => ?_
      rw [Schema.isKeyword, Bool.not_or, Bool.and_comm]
    rwa [htype, hother] at hsplit
  unfold keywordsFirst
  rw [List.append_assoc]
  exact (hrest.append_left _).trans (List.filter_append_perm (·.1 == "@id") object)

/-- What a row has for the identity is its subject. -/
theorem cell_identity (htable : p.fragment.Table ns p.entity s class_) {iri : String}
    (hsubject : p.subjectIn? row = some iri) :
    cell ns p row "@id" = some ("@id", .str (ns.abbreviate iri)) := by
  unfold Part.subjectIn? at hsubject
  rw [htable.subject] at hsubject
  obtain ⟨b, hb, rfl⟩ := Option.map_eq_some_iff.mp hsubject
  obtain ⟨hb, hiri⟩ := Option.filter_eq_some_iff.mp hb
  simp [cell, cellAt, htable.identity, hb, binding, hiri]

/-- The object of a row with its keywords in front: the members of the view of a node. -/
theorem keywordsFirst_cells (htable : p.fragment.Table ns p.entity s class_)
    (he : p.entity.Tabular ns) (hidentity : "@id" ∈ p.entity.selectedKeys) {iri : String}
    (hsubject : p.subjectIn? row = some iri) :
    keywordsFirst (cells ns p row ++ typeMember ns p class_) =
      [("@id", .str (ns.abbreviate iri))] ++ typeMember ns p class_ ++
        (p.entity.selectedKeys.filter (!Schema.isKeyword ·)).filterMap (cell ns p row) := by
  have hid : (cells ns p row).filter (·.1 == "@id") =
      [("@id", .str (ns.abbreviate iri))] := by
    unfold cells
    rw [Assoc.filter_filterMap (cell_key ns p row) (· == "@id"), List.filter_beq,
      List.count_eq_one_of_mem he.selected hidentity]
    simp [cell_identity htable hsubject]
  have htype : (cells ns p row).filter (·.1 == "@type") = [] := by
    refine List.filter_eq_nil_iff.mpr fun e he htype => ?_
    refine Assoc.get?_eq_none_iff.mp (get?_cells_type htable row) ?_
    exact List.mem_map.mpr ⟨e, he, by simpa using htype⟩
  have hother : (cells ns p row).filter (!Schema.isKeyword ·.1) =
      (p.entity.selectedKeys.filter (!Schema.isKeyword ·)).filterMap (cell ns p row) :=
    Assoc.filter_filterMap (cell_key ns p row) (!Schema.isKeyword ·) _
  unfold keywordsFirst
  simp only [List.filter_append, hid, htype, hother]
  unfold typeMember
  split <;> simp [Schema.isKeyword]

/-! ## Collections of one entity -/

/-- Without shared variables a part hangs under no other. -/
theorem scopeAll_single {ctx : Context} (he : p.entity.Tabular ns)
    (hparse : Context.parse .empty (.obj (entityContext ns config p)) = .ok ctx) :
    scopeAll ns config [p] = .ok [⟨p, ctx⟩] := by
  have hconditions : p.entity.sharedConditions = [] := by
    refine List.filterMap_eq_nil_iff.mpr fun entry hentry => ?_
    rw [he.unshared entry hentry, Option.map_none]
  have hlink : parentLink? ns [] p.entity = none := by
    unfold parentLink?
    rw [hconditions]
    cases p.entity.condition? "@id" with
    | none => rfl
    | some c => cases c <;> rfl
  simp [scopeAll, addScoped, hlink, hparse, bind, Except.bind, pure, Except.pure]

/-- All nodes of the class are those of the part. -/
theorem groupNodes_single (htable : p.fragment.Table ns p.entity s class_)
    (he : p.entity.Tabular ns) (hclass : p.entity.class? ns = some class_) {nodes : NodeMap}
    (hnodes : ∀ n ∈ nodes, n.hasType class_ = true) : groupNodes ns nodes [p] = [nodes] := by
  have hresolving : isResolving p = false := by simp [isResolving, he.unresolved]
  have hdirect : directGroup ns nodes p = nodes := by
    unfold directGroup
    rw [hresolving, htable.subject, hclass]
    exact List.filter_eq_self.mpr hnodes
  have horder : resolvingOrder ns [p] = [] := by simp [resolvingOrder, hresolving]
  simp [groupNodes, hdirect, horder]

/-- The graph of a tabular collection is read as the views of its nodes. -/
theorem graph_constructed {c : Collection} {f : Fragment} {e : Entity} {ctx : Context}
    (hc : c.Tabular ns e class_) (htable : f.Table ns e s class_)
    (hparse : Context.parse .empty (.obj (entityContext ns config ⟨e, f⟩)) = .ok ctx)
    {rows : List Row} (hsubjects : ∀ row ∈ rows, ∃ iri, (Part.mk e f).subjectIn? row = some iri)
    (hdistinct : (rows.map (Part.mk e f).subjectIn?).Nodup) :
    graph ns config c [⟨e, f⟩] (Sparql.constructed f.template rows) =
      .ok (rows.map fun row => shape ns (rows.map ((Part.mk e f).nodeOf class_)) ⟨⟨e, f⟩, ctx⟩
        ((Part.mk e f).nodeOf class_ row)) := by
  have hpredicates : ∀ key m, e.reads? ns key = some m →
      m.reverse = false ∧ m.iri ≠ Vocabulary.rdfType := by
    intro key m hm
    obtain ⟨w, rfl, hplain⟩ := Context.Spells.plainPredicate hc.schema
      (Entity.reads?_eq_some.mp hm).2.2
    exact ⟨rfl, hplain.notType⟩
  have hquads := Part.ofQuads_constructed (p := ⟨e, f⟩) htable hpredicates hsubjects hdistinct
  have hgroups : groupNodes ns (rows.map ((Part.mk e f).nodeOf class_)) [⟨e, f⟩] =
      [rows.map ((Part.mk e f).nodeOf class_)] := by
    refine groupNodes_single (p := ⟨e, f⟩) htable hc.entity hc.target fun n hn => ?_
    obtain ⟨row, -, rfl⟩ := List.mem_map.mp hn
    simp [Part.nodeOf, Node.hasType]
  simp [graph, graphNodes, hquads, scopeAll_single (p := ⟨e, f⟩) hc.entity hparse, hgroups,
    decodeAll, linkAll, sortObjects, hc.unordered, bind, Except.bind, Except.mapError]

/-! ## People -/

/-- The schema of people with a name, an age, a friend and a remark; there is no predicate
for remarks. -/
def personSchema : Schema where
  targetClass := some "ex:Person"
  context :=
    [("name", .str "ex:name"),
      ("age", .obj [("@id", .str "ex:age"), ("@type", .str "xsd:integer")]),
      ("friend", .obj [("@id", .str "ex:knows")])]
  properties :=
    [("name", {}), ("age", { type := some "integer" }), ("friend", { format := some "iri" }),
      ("remark", {})]
  required := ["name"]

/-- People under some conditions. -/
def person (conditions : Assoc Condition) : Entity where
  index := 0
  schema := personSchema
  selection := some ["friend", "@type", "age", "@id", "name", "remark"]
  conditions := conditions

/-- The example map with a prefix that is named like a keyword. -/
def keywordNamed : Namespaces :=
  Namespaces.exampleOrg.insert "@x" "http://x.example/"

/-- The predicates of people, by their keys. -/
def personPredicates : Assoc Mapping :=
  [("name", ⟨"http://example.org/name", false⟩), ("age", ⟨"http://example.org/age", false⟩),
    ("friend", ⟨"http://example.org/knows", false⟩)]

section

variable (hns : ns = .exampleOrg ∨ ns = keywordNamed)

include hns in
/-- The prefixes of the example map are readable. -/
theorem readable_names : ∀ entry ∈ ns.entries, Namespaces.Readable entry.1 := by
  intro entry hentry
  have hname : entry.1 = "ex" ∨ entry.1 = "@x" := by
    revert entry
    rcases hns with rfl | rfl <;> decide +kernel
  rcases hname with h | h <;> rw [h] <;> exact ⟨by decide, by decide, by decide⟩

include hns in
/-- The predicates of people are those in the list. -/
theorem mem_personPredicates {key : String} {m : Mapping}
    (hm : personSchema.mapping? ns key = some m) : (key, m) ∈ personPredicates := by
  have hkey : key = "name" ∨ key = "age" ∨ key = "friend" := by
    cases hv : personSchema.context.get? key with
    | none => simp [Schema.mapping?, hv] at hm
    | some v =>
        have hmem := Assoc.mem_of_get? hv
        simp only [personSchema, List.mem_cons, Prod.mk.injEq, List.not_mem_nil, or_false] at hmem
        tauto
  have hpredicates : ∀ key ∈ ["name", "age", "friend"],
      personSchema.mapping? ns key = personPredicates.get? key := by
    rcases hns with rfl | rfl <;> decide +kernel
  rw [hpredicates key (by simpa using hkey)] at hm
  exact Assoc.mem_of_get? hm

include hns in
/-- The schema of people is plain. -/
theorem personSchema_plain : personSchema.Plain ns "http://example.org/Person" := by
  have hprefix : ns.get? "ex" = some "http://example.org/" := by
    rcases hns with rfl | rfl <;> decide +kernel
  have hexpand : ∀ w ∈ ["ex:name", "ex:age", "ex:knows"], ns.expand w ≠ Vocabulary.rdfType ∧
      ns.expand w ≠ "http://example.org/Person" ∧ Iri.isNamespace (ns.expand w) = false := by
    rcases hns with rfl | rfl <;> decide +kernel
  have hplain : ∀ w rest, Iri.compactParts? w = some ("ex", rest) →
      w ∈ ["ex:name", "ex:age", "ex:knows"] →
      PlainPredicate ns "http://example.org/Person" w := by
    intro w rest hparts hw
    obtain ⟨htype, hclass, hnamespace⟩ := hexpand w hw
    exact ⟨⟨"ex", rest, _, hparts, hprefix⟩, htype, hclass, hnamespace⟩
  constructor
  case keys => decide
  case names => rcases hns with rfl | rfl <;> decide +kernel
  case definitions =>
    intro key v hmem
    simp only [personSchema, List.mem_cons, Prod.mk.injEq, List.not_mem_nil, or_false] at hmem
    rcases hmem with ⟨rfl, rfl⟩ | ⟨rfl, rfl⟩ | ⟨rfl, rfl⟩
    · exact ⟨_, .text, hplain "ex:name" "name" rfl (by decide)⟩
    · exact ⟨_, .entry (by decide) (by decide) rfl fun h => absurd h (by decide),
        hplain "ex:age" "age" rfl (by decide)⟩
    · exact ⟨_, .entry (by decide) (by decide) rfl fun _ => .inl rfl,
        hplain "ex:knows" "knows" rfl (by decide)⟩

include hns in
/-- Under both maps, people with conditions on names and remarks make a tabular
collection. -/
theorem person_tabular {conditions : Assoc Condition} (hnodup : conditions.keys.Nodup)
    (hconditions : ∀ entry ∈ conditions, (entry.1 = "name" ∨ entry.1 = "remark") ∧
      entry.2.sharedName? = none ∧ entry.2.isComputed = false) :
    (Collection.single (person conditions)).Tabular ns (person conditions)
      "http://example.org/Person" := by
  have hfree : ∀ key, Schema.isKeyword key = true → (person conditions).condition? key = none := by
    intro key hword
    refine Assoc.get?_eq_none_iff.mpr fun hmem => ?_
    obtain ⟨entry, hentry, rfl⟩ := List.mem_map.mp hmem
    rcases (hconditions entry hentry).1 with h | h <;> simp [h, Schema.isKeyword] at hword
  have hentity : (person conditions).Tabular ns := by
    constructor
    case unresolved | anonymous => rfl
    case unpinned =>
      intro v hmem
      rcases (hconditions _ hmem).1 with h | h <;> simp at h
    case unshared => exact fun entry hentry => (hconditions entry hentry).2.1
    case uncomputed => exact fun entry hentry => (hconditions entry hentry).2.2
    case known =>
      intro entry hentry
      rcases (hconditions entry hentry).1 with h | h <;> rw [h] <;> rfl
    case conditions => exact hnodup
    case selected =>
      show ["friend", "@type", "age", "@id", "name", "remark"].Nodup
      decide
    case scalar =>
      intro key property _ hproperty
      have hmem := Assoc.mem_of_get? hproperty
      simp only [person, personSchema, List.mem_cons, Prod.mk.injEq, List.not_mem_nil,
        or_false] at hmem
      rcases hmem with ⟨rfl, rfl⟩ | ⟨rfl, rfl⟩ | ⟨rfl, rfl⟩ | ⟨rfl, rfl⟩ <;> rfl
    case distinct =>
      intro key key' m m' hm hm' hsame
      have hinjective : ∀ entry ∈ personPredicates, ∀ entry' ∈ personPredicates,
          entry.2.iri = entry'.2.iri → entry.1 = entry'.1 := by decide
      exact hinjective _ (mem_personPredicates hns hm) _ (mem_personPredicates hns hm') hsame
  constructor
  case entities => rfl
  case unordered => exact ⟨rfl, rfl⟩
  case entity => exact hentity
  case identity =>
    show "@id" ∈ ["friend", "@type", "age", "@id", "name", "remark"]
    decide
  case target =>
    unfold Entity.class?
    rw [hfree "@type" rfl]
    show personSchema.classIri? ns = some "http://example.org/Person"
    rcases hns with rfl | rfl <;> decide +kernel
  case namespaces =>
    rcases hns with rfl | rfl <;> exact ⟨by decide +kernel, by decide +kernel⟩
  case schema => exact personSchema_plain hns

end

/-! ## Agreement -/

/-- **Rows and graphs agree.**  A tabular collection compiles to a SELECT and to a
CONSTRUCT with one part each.  If no prefix name looks like a keyword, and every key
that a condition fixes has a predicate or is not selected, then for all solutions that
answer it, each with a subject of its own, reading the graph that they make of the
template gives the objects of the solutions, in their order, with the keywords in
front. -/
theorem graph_eq_solutions {c : Collection} {e : Entity} (hc : c.Tabular ns e class_)
    (hwords : ∀ entry ∈ ns.entries, Iri.isKeyword entry.1 = false)
    (hfilled : ∀ key v, (key, .value v) ∈ e.conditions → key ∈ e.selectedKeys →
      e.isRead ns key = true)
    (config : Config) :
    ∃ select construct p,
      c.compileSelect ns config = .ok select ∧ select.parts = [p] ∧
      c.compileConstruct ns config = .ok construct ∧ construct.parts = [p] ∧ p.entity = e ∧
      ∀ rows : List Row, (∀ row ∈ rows, p.Answers row) → (rows.map p.subjectIn?).Nodup →
        graph ns config c construct.parts
            (Sparql.constructed construct.query.template rows) =
          .ok ((solutions ns select.parts rows).map keywordsFirst) := by
  obtain ⟨select, construct, f, s, hselect, hselected, hconstruct, hconstructed, htemplate,
    htable⟩ := hc.exists_plans config
  refine ⟨select, construct, ⟨e, f⟩, hselect, hselected, hconstruct, hconstructed, rfl, ?_⟩
  intro rows hrows hdistinct
  have hns : ns.Plain := ⟨hc.namespaces, hwords⟩
  have hsubjects : ∀ row ∈ rows, ∃ iri, (Part.mk e f).subjectIn? row = some iri :=
    fun row hrow => Option.isSome_iff_exists.mp (hrows row hrow).subject
  obtain ⟨ctx, hparse, hspells⟩ := exists_spells (p := ⟨e, f⟩) config hns hc.schema
    htable.uncomputed hc.entity.isArray_kindOf
  rw [hconstructed, hselected, htemplate,
    graph_constructed hc htable hparse hsubjects hdistinct]
  unfold solutions
  rw [List.map_map]
  refine congrArg Except.ok (List.map_congr_left fun row hrow => ?_)
  obtain ⟨iri, hsubject⟩ := hsubjects row hrow
  rw [shape_eq hspells hns hc.schema hc.entity htable (hrows row hrow) hsubject,
    ← keywordsFirst_cells htable hc.entity hc.identity hsubject]
  exact congrArg keywordsFirst
    (entityObject_eq htable hc.entity hc.target hfilled (hrows row hrow)).symm

/-- Two people; one of them has neither an age nor a friend. -/
def acquaintances : List Row :=
  [[("eIri0", .uri "http://example.org/ann"), ("name0", .literal "Ann"),
      ("age0", .typed "42" Vocabulary.xsdInteger), ("friend0", .uri "http://example.net/amy")],
    [("eIri0", .uri "http://example.net/amy"), ("name0", .literal "Amy")]]

/-- The graph of two people is read as the objects of their solutions. -/
theorem graph_eq_solutions_acquaintances :
    ∃ e select construct, e = person [("name", .related .startWith [.str "A"])] ∧
      (Collection.single e).compileSelect .exampleOrg {} = .ok select ∧
      (Collection.single e).compileConstruct .exampleOrg {} = .ok construct ∧
      graph .exampleOrg {} (.single e) construct.parts
          (Sparql.constructed construct.query.template acquaintances) =
        .ok ((solutions .exampleOrg select.parts acquaintances).map keywordsFirst) ∧
      solutions .exampleOrg select.parts acquaintances =
        [[("friend", .str "http://example.net/amy"), ("age", .num (.int 42)),
            ("@id", .str "ex:ann"), ("name", .str "Ann"), ("@type", .str "ex:Person")],
          [("@id", .str "http://example.net/amy"), ("name", .str "Amy"),
            ("@type", .str "ex:Person")]] := by
  have htabular : (Collection.single (person [("name", .related .startWith [.str "A"])])).Tabular
      .exampleOrg (person [("name", .related .startWith [.str "A"])]) "http://example.org/Person" :=
    person_tabular (.inl rfl) (by decide) (by simp +decide)
  obtain ⟨select, construct, p, hselect, hselected, hconstruct, hconstructed, -, hagree⟩ :=
    graph_eq_solutions htabular (by decide +kernel) (by simp [person]) {}
  refine ⟨_, select, construct, rfl, hselect, hconstruct, ?_, ?_⟩
  · cases hselect
    cases hselected
    exact hagree acquaintances (by decide +kernel) (by decide +kernel)
  · cases hselect
    rfl

/-- The two objects that a SELECT and a CONSTRUCT of a collection make of one solution. -/
def Readings (ns : Namespaces) (c : Collection) (row : Row) (tabular graphed : Object) : Prop :=
  ∃ select construct p,
    c.compileSelect ns {} = .ok select ∧ select.parts = [p] ∧
    c.compileConstruct ns {} = .ok construct ∧ construct.parts = [p] ∧ p.Answers row ∧
    solutions ns select.parts [row] = [tabular] ∧
    graph ns {} c construct.parts (Sparql.constructed construct.query.template [row]) =
      .ok [graphed]

/-- A person that is known by name. -/
def named (iri : String) : Row :=
  [("eIri0", .uri iri), ("name0", .literal "Ann")]

/-- Neither of the two conditions can be left out.  A prefix that is named like a keyword
is no prefix of a context, so that a graph does not shorten what a row does; and a key
without a predicate is filled in by its condition in a row and not in a graph. -/
theorem graph_ne_solutions :
    ((∀ entry ∈ keywordNamed.entries, Namespaces.Readable entry.1) ∧
      (Collection.single (person [])).Tabular keywordNamed (person [])
        "http://example.org/Person" ∧
      ∃ tabular graphed,
        Readings keywordNamed (.single (person [])) (named "http://x.example/ann") tabular graphed ∧
        tabular.get? "@id" = some (.str "@x:ann") ∧
        graphed.get? "@id" = some (.str "http://x.example/ann")) ∧
    ∃ e, e = person [("remark", .value (.str "old"))] ∧
      (∀ entry ∈ Namespaces.exampleOrg.entries, Namespaces.Readable entry.1) ∧
      (Collection.single e).Tabular .exampleOrg e "http://example.org/Person" ∧
      ∃ tabular graphed,
        Readings .exampleOrg (.single e) (named "http://example.org/ann") tabular graphed ∧
        tabular.get? "remark" = some (.str "old") ∧ graphed.get? "remark" = none := by
  refine ⟨⟨readable_names (.inr rfl), person_tabular (.inr rfl) (by decide) (by simp), _, _,
    ⟨_, _, _, rfl, rfl, rfl, rfl, by decide +kernel, rfl, rfl⟩, rfl, rfl⟩, ?_⟩
  exact ⟨_, rfl, readable_names (.inl rfl), person_tabular (.inl rfl) (by decide) (by simp +decide),
    _, _, ⟨_, _, _, rfl, rfl, rfl, rfl, by decide +kernel, rfl, rfl⟩, rfl, rfl⟩

end Decode

end ObjectGraph
