import ObjectGraph.Proofs.Context.Returning
import ObjectGraph.Proofs.Decode.Gathering

/-!
# References to children

The object of a parent has the identity of a child in its short form, and linking looks for
a child with the identity that this form expands to.  It finds the child as long as the
identity comes back (`Context.Returns`), for the parents of every collection
(`references_return`).  An identity whose scheme is the name of one of the parent's keys
does not come back, and the child stays outside (`doi_not_linked`).
-/

namespace ObjectGraph.Decode

open Json (Value Object)

/-- **References come back**: under every context that is read, and under that of every
parent, the short form of an identity expands to it exactly if the identity returns, and
then the parent's references to a child of this identity become the object of one. -/
theorem references_return (iri : String) :
    (∀ {ctx : Context}, ctx.Read →
      (ctx.expand false (ctx.compactId iri) = iri ↔ ctx.Returns iri)) ∧
    ∀ {ns : Namespaces} {config : Config} {parts : List Part} {entities : List Scoped},
      scopeAll ns config parts = .ok entities → ∀ s ∈ entities,
        (s.context.expand false (s.context.compactId iri) = iri ↔ s.context.Returns iri) ∧
        (s.context.Returns iri → ∀ children : List Decoded, ∀ c ∈ children, c.node.id = iri →
          ∀ (d : Decoded) (key : String),
            d.object.get? key = some (.str (s.context.compactId iri)) →
              ∃ found ∈ children, found.node.id = iri ∧
                (linkForward s.context children key d).object.get? key =
                  some (.obj found.object)) := by
  refine ⟨fun {ctx} hread => Context.expand_compactId_iff hread.words hread.distinct iri, ?_⟩
  intro ns config parts entities hscoped s hs
  have hiff := Context.expand_compactId_iff (scopeAll_words hscoped s hs)
    (scopeAll_distinct hscoped s hs) iri
  refine ⟨hiff, fun hreturns children c hc hidentity d key hvalue => ?_⟩
  have hback := hiff.mpr hreturns
  rcases replaceRef_str s.context children (s.context.compactId iri) with
    ⟨-, hnone⟩ | ⟨found, hfound, hid, hreplaced⟩
  · exact (hnone c hc (hidentity.trans hback.symm)).elim
  · refine ⟨found, hfound, hid.trans hback, ?_⟩
    rw [get?_linkForward, if_pos rfl, hvalue, Option.map_some]
    exact congrArg some hreplaced

/-! ## Papers and the works they cite -/

/-- Papers with a key named `doi`, and the works that they cite. -/
def papers : Collection where
  entities :=
    [{ index := 0
       schema :=
         { targetClass := some "ex:Paper"
           context := [("doi", .str "ex:doi"), ("cites", .str "ex:cites")]
           properties := [("doi", {}), ("cites", { format := some "iri" })] }
       conditions := [("cites", .shared "work")] },
     { index := 1
       schema :=
         { targetClass := some "ex:Work"
           context := [("title", .str "ex:title")]
           properties := [("title", {})] }
       conditions := [("@id", .shared "work")] }]

/-- A paper that cites a work. -/
def citing (work : String) : List Quad :=
  [quadOf "http://example.org/a" Vocabulary.rdfType "http://example.org/Paper",
   quadOf "http://example.org/a" "http://example.org/cites" work,
   quadOf work Vocabulary.rdfType "http://example.org/Work"]

/-- A work whose identity is behind a namespace comes back, and its paper is linked to it. -/
theorem references_return_work :
    (∃ ctx, Context.parse .empty (.obj [("ex", .str "http://example.org/")]) = .ok ctx ∧
      ctx.Returns "http://example.org/w") ∧
    ∃ plan ∈ (papers.compileConstruct .exampleOrg {}).toOption,
      ∃ entities, scopeAll .exampleOrg {} plan.parts = .ok entities ∧
        ∃ s ∈ entities, ∃ paper work : Decoded,
          paper.object.get? "cites" = some (.str "ex:w") ∧
            (linkForward s.context [work] "cites" paper).object.get? "cites" =
              some (.obj work.object) := by
  constructor
  · have hcontext : ∃ ctx ∈ (Context.parse .empty
        (.obj [("ex", .str "http://example.org/")])).toOption,
        ctx.expand false (ctx.compactId "http://example.org/w") = "http://example.org/w" := by
      decide +kernel
    obtain ⟨ctx, hctx, hback⟩ := hcontext
    have hparse := eq_ok_of_mem_toOption hctx
    exact ⟨ctx, hparse, ((references_return _).1 (.above .empty hparse)).mp hback⟩
  · have hplan : ∃ plan ∈ (papers.compileConstruct .exampleOrg {}).toOption,
        ∃ entities ∈ (scopeAll .exampleOrg {} plan.parts).toOption, ∃ s ∈ entities,
          s.context.expand false (s.context.compactId "http://example.org/w") =
            "http://example.org/w" ∧
          s.context.compactId "http://example.org/w" = "ex:w" := by
      decide +kernel
    obtain ⟨plan, hplan, entities, hentities, s, hs, hback, hshort⟩ := hplan
    have hscoped := eq_ok_of_mem_toOption hentities
    let paper : Decoded := ⟨Node.empty "http://example.org/a", [("cites", .str "ex:w")]⟩
    let work : Decoded := ⟨Node.empty "http://example.org/w", [("@id", .str "ex:w")]⟩
    obtain ⟨hiff, hlinks⟩ := (references_return "http://example.org/w").2 hscoped s hs
    obtain ⟨found, hfound, -, hlinked⟩ := hlinks (hiff.mp hback) [work] work
      (List.mem_singleton_self work) rfl paper "cites" (by rw [hshort]; rfl)
    obtain rfl := List.mem_singleton.mp hfound
    exact ⟨plan, hplan, entities, hscoped, s, hs, paper, work, rfl, hlinked⟩

/-- A work whose identity has the scheme `doi` is expanded under the key of that name, and
the paper keeps the mere reference. -/
theorem doi_not_linked :
    (∃ ctx ∈ (Context.parse .empty
        (.obj [("ex", .str "http://example.org/"), ("doi", .str "ex:doi")])).toOption,
      Iri.isAbsolute "doi:10.1000/182" = true ∧
        ctx.expand false (ctx.compactId "doi:10.1000/182") =
          "http://example.org/doi10.1000/182") ∧
    (readBack .exampleOrg papers (citing "doi:10.1000/182")).toOption =
        some [[("@id", .str "ex:a"), ("cites", .str "doi:10.1000/182")]] ∧
    ∃ plan ∈ (papers.compileConstruct .exampleOrg {}).toOption,
      ∃ own ∈ readOwn .exampleOrg plan.parts (citing "doi:10.1000/182"),
        ∃ e ∈ own[0]?, ∃ f ∈ own[1]?, ∃ work ∈ f.2, work.node.id = "doi:10.1000/182" ∧
          e.1.context.expand false (e.1.context.compactId work.node.id) ≠ work.node.id := by
  decide +kernel

end ObjectGraph.Decode
