import ObjectGraph.Proofs.Compile.DocumentAtoms
import ObjectGraph.Proofs.Sparql.IriTokens

/-!
# How the IRIs of a query are written

The IRIs of queries and updates are those of the vocabulary and those that entities place in
them (`Collection.compiles_admits`).  None of them is looked at on the way to the text.  So
what is written for an IRI is a token that denotes it exactly if the IRI is writable, and only
those that an entity places can fail to be (`Collection.iris_written`).
-/

namespace ObjectGraph

open Sparql (Document Token IriToken)

namespace Collection

variable {ns : Namespaces} {config : Config} {c : Collection}

/-- The IRIs that queries have of themselves are ASCII and can stand between angle brackets. -/
theorem vocabulary_writable (style : Sparql.IriStyle) :
    ∀ i ∈ Vocabulary.inQueries, style.isWritable i = true := by
  have hascii : ∀ i ∈ Vocabulary.inQueries,
      (i.toList.all fun c => Sparql.isIriChar c && decide (c.toNat < 0x80)) = true := by
    decide +kernel
  intro i hi
  refine style.isWritable_of_ascii fun c hc => ?_
  simpa using List.all_eq_true.mp (hascii i hi) c hc

/-- **IRIs in queries.**  Under every namespace map with proper prefix names, with prefixes or
without, what a compiled query or update has for an IRI is a token that denotes this IRI
exactly if the IRI is writable; and an IRI that is not writable has been placed there by an
entity. -/
theorem iris_written (hnames : ∀ e ∈ ns.entries, Sparql.isPrefixName e.1 = true) {d : Document}
    (h : c.Compiles ns config d) {i : String} (hi : Token.iri i ∈ d.tokens) :
    (IriToken ns (Token.text (config.iriStyle ns) (.iri i)).toList i ↔
        (config.iriStyle ns).isWritable i = true) ∧
      ((config.iriStyle ns).isWritable i = true ∨ ∃ e ∈ c.entities, e.Places ns config i) := by
  have hstyle : config.iriStyle ns = .full ∨ config.iriStyle ns = .compact ns := by
    unfold Config.iriStyle
    split
    · exact .inr rfl
    · exact .inl rfl
  have hplaced : c.Uses ns config i := Document.fit_tokens (compiles_admits h) _ hi
  exact ⟨Token.iriToken_iff hnames hstyle i, hplaced.imp_left (vocabulary_writable _ i)⟩

/-- A thing that is given by its identity. -/
def thingAt (id : String) : Entity where
  index := 0
  schema :=
    { targetClass := some "ex:Thing"
      context := [("name", .str "ex:name")]
      properties := [("name", { type := some "string" })] }
  conditions := [("@id", .value (.str id))]

/-- A hyphen and dots inside a name do no harm. -/
theorem iris_written_version :
    ∃ plan, (single (thingAt "ex:part-1.0")).compileSelect .exampleOrg {} = .ok plan ∧
      Token.iri "http://example.org/part-1.0" ∈ plan.query.document ∧
      ∀ i, Token.iri i ∈ plan.query.document →
        IriToken .exampleOrg (Token.text (.compact .exampleOrg) (.iri i)).toList i := by
  have hnames : ∀ e ∈ Namespaces.exampleOrg.entries, Sparql.isPrefixName e.1 = true := by decide
  obtain ⟨plan, hplan, hiris⟩ : ∃ plan,
      (single (thingAt "ex:part-1.0")).compileSelect .exampleOrg {} = .ok plan ∧
        plan.query.iris = ["http://example.org/part-1.0", Vocabulary.rdfType,
          "http://example.org/Thing", "http://example.org/part-1.0", "http://example.org/name"] :=
    ⟨_, rfl, rfl⟩
  have htokens : Sparql.irisOf (Document.select plan.query).tokens = _ :=
    (Document.iris_tokens _).trans hiris
  refine ⟨plan, hplan, Sparql.mem_irisOf.mp (htokens ▸ List.mem_cons_self), fun i hi => ?_⟩
  have hcompiles : (single (thingAt "ex:part-1.0")).Compiles .exampleOrg {} (.select plan.query) :=
    .select hplan
  refine (iris_written hnames hcompiles hi).1.mpr ?_
  have hwritable : ∀ i ∈ plan.query.iris,
      (Sparql.IriStyle.compact .exampleOrg).isWritable i = true := by
    rw [hiris]
    decide +kernel
  refine hwritable i ?_
  rw [hiris, ← htokens]
  exact Sparql.mem_irisOf.mpr hi

/-- A superscript is taken for a letter, so what is written for a square metre denotes
nothing, though there is a token for it.  And an angle bracket in an identity ends the IRI:
the rest of the text is read as part of the query. -/
theorem iris_bent :
    (∃ plan, (single (thingAt "ex:m²")).compileSelect .exampleOrg {} = .ok plan ∧
      Token.iri "http://example.org/m²" ∈ plan.query.document ∧
      Token.text (.compact .exampleOrg) (.iri "http://example.org/m²") = "ex:m²" ∧
      (∀ i, ¬ IriToken .exampleOrg "ex:m²".toList i) ∧
      IriToken .exampleOrg (Token.text .full (.iri "http://example.org/m²")).toList
        "http://example.org/m²") ∧
    ∃ plan, (single (thingAt "http://x.example/a> ?p ?o . \x7d #")).compileSelect .exampleOrg {} =
        .ok plan ∧
      plan.text .exampleOrg {} =
        "PREFIX ex: <http://example.org/>\nSELECT ?name0 WHERE \x7b\n" ++
        "  <http://x.example/a> ?p ?o . \x7d #> " ++
          "<http://www.w3.org/1999/02/22-rdf-syntax-ns#type> ex:Thing .\n" ++
        "  OPTIONAL \x7b <http://x.example/a> ?p ?o . \x7d #> ex:name ?name0 . \x7d\n\x7d" ∧
      ∀ cs, ¬ IriToken .exampleOrg cs "http://x.example/a> ?p ?o . \x7d #" := by
  refine ⟨⟨_, rfl, ?_, by decide +kernel, fun i h => ?_, ?_⟩, _, rfl, by decide +kernel,
    fun cs h => ?_⟩
  · exact Sparql.mem_irisOf.mp ((Document.iris_tokens (.select _)).symm ▸ List.mem_cons_self)
  · -- a local name by the program's test, but no local part by the grammar
    have hpart : Sparql.isLocalPart "m²" = false := by decide
    have hname : Sparql.isPrefixName "ex" = true := by decide
    have hread : Sparql.isLocalPart "m²" = true := ((IriToken.prefixed_iff hname).mp h).1
    rw [hpart] at hread
    cases hread
  · exact (Token.iriToken_iff (by decide) (.inl rfl) _).mpr (by decide)
  · rcases h.spelled with hchars | ⟨e, he, hstem⟩
    · exact absurd (hchars '>' (by decide)) (by decide)
    · revert e
      decide +kernel

end Collection

end ObjectGraph
