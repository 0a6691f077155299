import ObjectGraph.Proofs.Compile.DocumentAtoms
import ObjectGraph.Proofs.Sparql.Literals

/-!
# Values cannot leave their literals

A value of a condition or of the data that is compared or stored as a literal is a token of
its own, and the text around this token does not depend on it (`Sparql.documentOf_quoted`).
What a reader meets in the text of a compiled query or update are then its literals, each
with its value, and all else as it was written: the names of variables are drawn or joined,
and there is neither a language tag nor a label, so that only prefixes, IRIs and the names of
an order have to be free of quotation marks (`Collection.literals_closed`).

A value that refers to an IRI is no literal.  What becomes of such a value is a matter of how
IRIs are written.
-/

namespace ObjectGraph

open Sparql (Atom Document IriStyle Piece Scans Token Unquoted documentOf piecesOf readQuoted?
  textOf)

/-- The text of a literal stands between parts of the query that do not depend on it. -/
theorem Sparql.documentOf_quoted (style : IriStyle) (before after : List Token) (s : String) :
    (documentOf style (before ++ .quoted s :: after)).toList =
      (declarations style (before ++ after)).toList ++ (textOf style before).toList ++
        ('"' :: (Text.escapeLiteral s).toList ++ '"' :: (textOf style after).toList) := by
  have hprefixes : declarations style (before ++ .quoted s :: after) =
      declarations style (before ++ after) := by
    unfold declarations usedPrefixes
    cases style with
    | full => rfl
    | compact ns => simp [Token.usedPrefix?]
  have htext : (Token.text style (.quoted s)).toList =
      '"' :: (Text.escapeLiteral s).toList ++ ['"'] := by
    simp [Token.text]
  simp [documentOf, hprefixes, Sparql.toList_textOf, htext]

/-- A name has no quotation mark. -/
theorem Allocator.IsName.unquoted {s : String} (h : IsName s) : Unquoted s := fun hquote =>
  absurd (h.chars '"' hquote) (by decide)

namespace Collection

variable {ns : Namespaces} {config : Config} {c : Collection} {d : Document}

/-- The names in a query have no quotation marks if those of its IRIs and its order have
none. -/
theorem tokens_clean (h : c.Compiles ns config d)
    (hiris : ∀ i, Token.iri i ∈ d.tokens → Unquoted i)
    (horder : ∀ x, c.Orders x → Unquoted x.name) : Sparql.Fit Atom.Clean d.tokens := by
  intro t ht
  have hadmits : t.Fits (c.Admits ns config) := Document.fit_tokens (compiles_admits h) t ht
  cases t with
  -- the printer's own words, then what a name may be, then what does not occur
  | word | gap => exact hadmits
  | «variable» x => exact hadmits.elim (·.unquoted) (horder x)
  | iri i => exact hiris i ht
  | quoted => trivial
  | language | blank => cases hadmits

/-- **Literals cannot be broken out of.**  A text that is written as a literal is read back
whatever follows it, and the reader then stands at what follows.  In the text of a query, what
stands in front of a literal and what follows it do not depend on the text of the literal.
And what is met in the text of a compiled query or update are its literals with their texts
and all else as it was written, as long as no prefix, no IRI and no name of an order has a
quotation mark. -/
theorem literals_closed :
    (∀ (s : String) (r : List Char),
      readQuoted? ('"' :: (Text.escapeLiteral s).toList ++ '"' :: r) = some (s, r)) ∧
    (∀ (style : IriStyle) (before after : List Token), ∃ front back : List Char, ∀ s : String,
      (documentOf style (before ++ .quoted s :: after)).toList =
        front ++ ('"' :: (Text.escapeLiteral s).toList ++ '"' :: back)) ∧
    ∀ (ns : Namespaces) (config : Config) (c : Collection) (d : Document),
      c.Compiles ns config d → (config.iriStyle ns).Clean →
      (∀ i, Token.iri i ∈ d.tokens → Unquoted i) → (∀ x, c.Orders x → Unquoted x.name) →
      ∀ ps : List Piece, Scans (documentOf (config.iriStyle ns) d.tokens).toList ps ↔
        ps = piecesOf (config.iriStyle ns) d.tokens := by
  refine ⟨Sparql.readQuoted?_escapeLiteral, fun style before after => ?_, ?_⟩
  · exact ⟨_, _, Sparql.documentOf_quoted style before after⟩
  · intro ns config c d h hstyle hiris horder ps
    exact Sparql.scans_iff hstyle (tokens_clean h hiris horder)

/-- A thing that is found by its name. -/
def thingNamed (name : String) : Entity where
  index := 0
  schema :=
    { targetClass := some "ex:Thing"
      context := [("name", .str "ex:name")]
      properties := [("name", { type := some "string" })] }
  conditions := [("name", .value (.str name))]

/-- A name that looks like the end of a query. -/
theorem literals_closed_forged :
    ∃ plan, (single (thingNamed "\" ) \x7d ;\nDROP ALL # \\")).compileSelect .exampleOrg {} =
        .ok plan ∧
      Token.quoted "\" ) \x7d ;\nDROP ALL # \\" ∈ plan.query.document ∧
      ∀ ps, Scans (plan.text .exampleOrg {}).toList ps ↔
        ps = piecesOf (.compact .exampleOrg) plan.query.document := by
  obtain ⟨plan, hplan, hquoted, hiris⟩ : ∃ plan,
      (single (thingNamed "\" ) \x7d ;\nDROP ALL # \\")).compileSelect .exampleOrg {} =
        .ok plan ∧
      Token.quoted "\" ) \x7d ;\nDROP ALL # \\" ∈ plan.query.document ∧
      plan.query.iris = [Vocabulary.rdfType, "http://example.org/Thing",
        "http://example.org/name"] :=
    ⟨_, rfl, by decide +kernel, rfl⟩
  refine ⟨plan, hplan, hquoted, ?_⟩
  have hclean : ∀ i ∈ plan.query.iris, Unquoted i := by
    rw [hiris]
    decide
  have htokens : Sparql.irisOf (Document.select plan.query).tokens = plan.query.iris :=
    Document.iris_tokens (.select plan.query)
  refine literals_closed.2.2 .exampleOrg {} _ (.select plan.query) (.select hplan) ?_
    (fun i hi => hclean i ?_) ?_
  · show ∀ e ∈ Namespaces.exampleOrg.entries, Unquoted e.1 ∧ Unquoted e.2
    decide
  · rw [← htokens]
    exact Sparql.mem_irisOf.mpr hi
  · rintro x ⟨k, hk, -⟩
    cases hk

end Collection

end ObjectGraph
