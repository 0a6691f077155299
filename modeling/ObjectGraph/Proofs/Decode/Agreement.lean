import ObjectGraph.Compile.Construct
import ObjectGraph.Proofs.Compile.Template
import ObjectGraph.Proofs.Decode.Terms

/-!
# Where templates and contexts agree

A template writes the predicate that the namespace map gives to the name of a key,
in one expansion.  The context that reads the graph back follows the same name
through all definitions that stand beside it: other terms, a vocabulary, computed
keys, and prefixes of the schema itself.  The two agree exactly if the name leads to
its expansion (`entityContext_agrees`).  For names on which only the namespace map
has a say this is so; a prefix that the schema defines for itself is the simplest
case where it is not (`entityContext_local_prefix`).
-/

namespace ObjectGraph

namespace Decode

variable {ns : Namespaces} {config : Config} {p : Part} {ctx : Context}

/-- **Agreement on predicates.**  Take an entity whose context is accepted.  Every
triple of its template has the predicate of types, of a key, or of a computed key.
The term of a key stands for the predicate of the key exactly if the key is no keyword
and its written name leads to that predicate, which it does if the name is plain; and
likewise for the IRIs of computed keys. -/
theorem entityContext_agrees (hkeys : p.entity.schema.context.keys.Nodup)
    (hentries : ∀ key entry, (key, .obj entry) ∈ p.entity.schema.context →
      (Assoc.keys entry).Nodup)
    (hcomputed : "@context" ∉ p.fragment.bindVars.keys)
    (hparse : Context.parse .empty (.obj (entityContext ns config p)) = .ok ctx) :
    (∀ options a a', p.entity.compile ns config options a = .ok (p.fragment, a') →
      ∀ t ∈ p.fragment.template, p.entity.Writes ns config t.predicate) ∧
    (∀ key m, p.entity.mapping? ns key = some m → key ∉ p.fragment.bindVars.keys →
      ∃ w, p.entity.schema.written? key = some (w, m.reverse) ∧ m.iri = ns.expand w ∧
        (ctx.Names key m ↔ Iri.isKeyword key = false ∧ Leading ns config p w m.iri) ∧
        (Iri.isKeyword key = false → PlainName ns p w → ctx.Names key m)) ∧
    (∀ key ∈ p.fragment.bindVars.keys,
      (ctx.Names key ⟨config.localIri key, false⟩ ↔
        Iri.isKeyword key = false ∧
          Leading ns config p (config.localIri key) (config.localIri key)) ∧
      (Iri.isKeyword key = false → PlainName ns p (config.localIri key) →
        ns.expand (config.localIri key) = config.localIri key →
        ctx.Names key ⟨config.localIri key, false⟩)) := by
  refine ⟨fun _ _ _ h => Entity.template_predicate h, ?_, ?_⟩
  · intro key m hmapping hkey
    obtain ⟨⟨w, reverse⟩, hw, rfl⟩ := Option.map_eq_some_iff.mp
      ((p.entity.schema.mapping?_eq ns key).symm.trans hmapping)
    have hiff : ctx.Names key ⟨ns.expand w, reverse⟩ ↔
        Iri.isKeyword key = false ∧ Leading ns config p w (ns.expand w) := by
      cases hword : Iri.isKeyword key with
      | true => simp [not_names_of_keyword hkeys hcomputed hparse hword]
      | false =>
          obtain ⟨v, hv, htarget⟩ := Option.bind_eq_some_iff.mp hw
          obtain ⟨e, he, hsame⟩ := exists_enteredTerm? hword
            (fun entry h => hentries key entry (h ▸ Assoc.mem_of_get? hv)) htarget
          have hget : Assoc.get? (entityContext ns config p) key = some e := by
            rw [get?_entityContext hkeys, if_neg hkey, hv, Option.bind_some, he, Option.some_or]
          simpa using names_iff_leading hkeys hcomputed hparse hword hget hsame (ns.expand w)
    exact ⟨w, hw, rfl, hiff, fun hword hplain => hiff.mpr ⟨hword, hplain.leading hkeys⟩⟩
  · intro key hkey
    have hiff : ctx.Names key ⟨config.localIri key, false⟩ ↔ Iri.isKeyword key = false ∧
        Leading ns config p (config.localIri key) (config.localIri key) := by
      cases hword : Iri.isKeyword key with
      | true => simp [not_names_of_keyword hkeys hcomputed hparse hword]
      | false =>
          have hget : Assoc.get? (entityContext ns config p) key =
              some (computedTerm config key) := by
            rw [get?_entityContext hkeys, if_pos hkey]
          have hwritten : Context.writtenTarget? (computedTerm config key) =
              some (config.localIri key, false) := by
            simp [computedTerm, Context.writtenTarget?, Assoc.get?, Json.Value.asText?]
          simpa using names_iff_leading hkeys hcomputed hparse hword hget hwritten
            (config.localIri key)
    refine ⟨hiff, fun hword hplain hexpand => hiff.mpr ⟨hword, ?_⟩⟩
    have hleads : Leading ns config p (config.localIri key) (ns.expand (config.localIri key)) :=
      hplain.leading hkeys
    rwa [hexpand] at hleads

/-- A thing with a name under a prefix that only its schema knows, an age, and the
computed key whether the age is there. -/
def locallyNamed : Entity where
  index := 0
  schema :=
    { targetClass := some "ex:Thing"
      context :=
        [("foo", .str "http://foo.example/"), ("name", .str "foo:name"),
          ("age", .obj [("@id", .str "ex:age")])]
      properties := [("name", { type := some "string" }), ("age", { type := some "integer" })] }
  conditions := [("aged", .computed .exist [⟨"?eIri0", "ex:age", "?years"⟩])]

/-- The context of the thing reads its age and the computed key. -/
theorem entityContext_agrees_locallyNamed :
    ∃ f ctx,
      (Collection.single locallyNamed).compileParts .exampleOrg {} {} =
        .ok [⟨locallyNamed, f⟩] ∧
      Context.parse .empty (.obj (entityContext .exampleOrg {} ⟨locallyNamed, f⟩)) = .ok ctx ∧
      (∀ t ∈ f.template, locallyNamed.Writes .exampleOrg {} t.predicate) ∧
      ctx.Names "age" ⟨"http://example.org/age", false⟩ ∧
      ctx.Names "aged" ⟨"urn:local:aged", false⟩ := by
  obtain ⟨f, a, hcompile, hbinds⟩ : ∃ f a,
      locallyNamed.compile .exampleOrg {} {} (Entity.shareAll [locallyNamed] .empty) =
        .ok (f, a) ∧ f.bindVars.keys = ["aged"] := ⟨_, _, rfl, rfl⟩
  obtain ⟨ctx, hparse⟩ : ∃ ctx,
      Context.parse .empty (.obj (entityContext .exampleOrg {} ⟨locallyNamed, f⟩)) = .ok ctx := by
    cases hcompile
    exact ⟨_, rfl⟩
  have hentries : ∀ key entry, (key, .obj entry) ∈ locallyNamed.schema.context →
      (Assoc.keys entry).Nodup := by
    simp [locallyNamed, Assoc.keys]
  have hkeys : locallyNamed.schema.context.keys.Nodup := by decide
  obtain ⟨hwrites, hterms, hcomputed⟩ := entityContext_agrees (p := ⟨locallyNamed, f⟩)
    hkeys hentries (by rw [hbinds]; decide) hparse
  refine ⟨f, ctx, ?_, hparse, hwrites _ _ _ hcompile, ?_, ?_⟩
  · cases hcompile
    rfl
  · obtain ⟨w, hw, _, _, hplain⟩ :=
      hterms "age" ⟨"http://example.org/age", false⟩ rfl (by rw [hbinds]; decide)
    cases hw
    have hparts : Iri.compactParts? "ex:age" = some ("ex", "age") := rfl
    have hschema : "ex" ∉ locallyNamed.schema.context.keys := by decide
    exact hplain (by decide)
      (.prefixed (by decide) hparts rfl rfl rfl hschema (by rw [hbinds]; decide))
  · have hparts : Iri.compactParts? "urn:local:aged" = some ("urn", "local:aged") := rfl
    have hschema : "urn" ∉ locallyNamed.schema.context.keys := by decide
    exact (hcomputed "aged" (by rw [hbinds]; decide)).2 (by decide)
      (.unknown (by decide) hparts rfl hschema (by rw [hbinds]; decide)) rfl

/-- The template of the thing writes its name under a predicate that no term of its
context stands for; the term of the name stands for another one. -/
theorem entityContext_local_prefix :
    ∃ plan p ctx,
      (Collection.single locallyNamed).compileConstruct .exampleOrg {} = .ok plan ∧
      plan.parts = [p] ∧
      locallyNamed.mapping? .exampleOrg "name" = some ⟨"foo:name", false⟩ ∧
      plan.query.template.map (·.predicate) =
        [.iri Vocabulary.rdfType, .iri "foo:name", .iri "http://example.org/age",
          .iri "urn:local:aged"] ∧
      Context.parse .empty (.obj (entityContext .exampleOrg {} p)) = .ok ctx ∧
      ctx.Names "name" ⟨"http://foo.example/name", false⟩ ∧
      ¬ ctx.Names "name" ⟨"foo:name", false⟩ ∧
      (ctx.termFor? "foo:name").isNone ∧ (ctx.reverseTermFor? "foo:name").isNone := by
  have hother : ∀ ctx : Context, ctx.Names "name" ⟨"http://foo.example/name", false⟩ →
      ¬ ctx.Names "name" ⟨"foo:name", false⟩ := by
    intro ctx h h'
    exact absurd (h.unique h') (by decide)
  refine ⟨_, _, _, rfl, rfl, rfl, rfl, rfl, ?_, hother _ ?_, by decide +kernel,
    by decide +kernel⟩
  · exact ⟨_, rfl, rfl⟩
  · exact ⟨_, rfl, rfl⟩

end Decode

end ObjectGraph
