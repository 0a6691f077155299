import ObjectGraph.Proofs.Context.Settled
import ObjectGraph.Proofs.Context.ShortNames
import ObjectGraph.Proofs.Decode.Terms

/-!
# Contexts of plain schemas

A namespace map is plain if its stems are IRIs in full that end as namespaces do and
none of its prefix names looks like a keyword, which a context would ignore; a schema
is plain over it if each term is written under a prefix of the map and stands for a
predicate that ends otherwise.
The context of an entity with a plain schema is accepted and spelled out
(`exists_spells`): the prefixes, then one term for each key.  Under it an IRI gets the
short form that the namespace map gives (`compactId_eq`), and a predicate gets the
name of its key (`termFor?_eq`).
-/

namespace ObjectGraph

open Json (Value Object)

namespace Namespaces

/-- Every stem is an IRI with `//` behind its scheme that ends as namespaces do. -/
structure Stemmed (ns : Namespaces) : Prop where
  full : ∀ e ∈ ns.entries, Iri.compactParts? e.2 = none ∧ Iri.isAbsolute e.2 = true
  stems : ∀ e ∈ ns.entries, Iri.isNamespace e.2 = true

/-- Besides, no prefix name looks like a keyword. -/
structure Plain (ns : Namespaces) : Prop extends Stemmed ns where
  words : ∀ e ∈ ns.entries, Iri.isKeyword e.1 = false

end Namespaces

/-- The definition of a key of some kind is a name, alone or in an object that has
nothing else but a type; references are typed as identities if at all. -/
inductive PlainDefinition (kind : Kind) (w : String) : Value → Prop
  | text : PlainDefinition kind w (.str w)
  | entry {entry : Object} (hkeys : entry.keys.Nodup)
      (hnames : ∀ name ∈ entry.keys, name = "@id" ∨ name = "@type")
      (hid : entry.get? "@id" = some (.str w))
      (htype : kind.isReference = true →
        entry.get? "@type" = none ∨ entry.get? "@type" = some (.str "@id")) :
      PlainDefinition kind w (.obj entry)

/-- A name under a prefix of a map stands for a predicate that is neither that of
types nor the class of the schema and does not end as namespaces do. -/
structure PlainPredicate (ns : Namespaces) (class_ w : String) : Prop where
  prefixed : ∃ name rest stem, Iri.compactParts? w = some (name, rest) ∧
    ns.get? name = some stem
  notType : ns.expand w ≠ Vocabulary.rdfType
  notClass : ns.expand w ≠ class_
  notNamespace : Iri.isNamespace (ns.expand w) = false

/-- Each key of a schema's context is no keyword and no prefix, and is defined by a
name under a prefix. -/
structure Schema.Plain (ns : Namespaces) (class_ : String) (s : Schema) : Prop where
  keys : s.context.keys.Nodup
  names : ∀ key ∈ s.context.keys, Iri.isKeyword key = false ∧ ns.get? key = none
  definitions : ∀ key v, (key, v) ∈ s.context →
    ∃ w, PlainDefinition (s.kindOf key) w v ∧ PlainPredicate ns class_ w

/-! ## The context of an entity -/

/-- A definition stands for a predicate read forwards; of references it makes
identities. -/
structure Definition.StandsFor (d : Definition) (kind : Kind) (iri : String) : Prop where
  iri : d.iri = some iri
  forward : d.reverse = none
  single : d.container = none
  typed : kind.isReference = true → d.coercion = some .id

/-- A context made of the prefixes of a map and of one term for each key of a schema. -/
structure Context.Spells (ns : Namespaces) (s : Schema) (ctx : Context) : Prop where
  vocab : ctx.vocab = none
  terms : ∃ term : String × Value → Definition,
    ctx.terms = ns.entries.map (fun e => (e.1, Definition.ofIri e.2)) ++
      s.context.map (fun m => (m.1, term m)) ∧
    ∀ m ∈ s.context, ∃ iri, s.mapping? ns m.1 = some ⟨iri, false⟩ ∧
      (term m).StandsFor (s.kindOf m.1) iri

namespace Decode

variable {ns : Namespaces} {config : Config} {p : Part} {class_ : String}

/-- A plain definition as the entry that it is short for. -/
def plainEntry : Value → Object
  | .str w => [("@id", .str w)]
  | .obj entry => entry
  | _ => []

/-- The member that a plain definition of a key becomes. -/
def termMember (schema : Schema) (member : String × Value) : String × Value :=
  (member.1, .obj (termEntry (schema.kindOf member.1) (plainEntry member.2)))

/-- What a plain definition is short for is a plain one. -/
theorem plainEntry_spec {kind : Kind} {w : String} {v : Value} (h : PlainDefinition kind w v) :
    PlainDefinition kind w (.obj (plainEntry v)) := by
  cases h with
  | text =>
      exact .entry (by simp [Assoc.keys, plainEntry]) (by simp [Assoc.keys, plainEntry]) rfl
        fun _ => .inl rfl
  | entry hkeys hnames hid htype => exact .entry hkeys hnames hid htype

/-- A plain definition maps its key to the expansion of its name. -/
theorem mapping?_of_plain (ns : Namespaces) {s : Schema} {key w : String} {v : Value}
    (hv : s.context.get? key = some v) (h : PlainDefinition (s.kindOf key) w v) :
    s.mapping? ns key = some ⟨ns.expand w, false⟩ := by
  unfold Schema.mapping?
  rw [hv]
  cases h with
  | text => rfl
  | entry hkeys hnames hid htype =>
      have hreverse : Assoc.get? _ "@reverse" = none :=
        Assoc.get?_eq_none_iff.mpr fun hmem => by
          rcases hnames _ hmem with h | h <;> revert h <;> decide
      simp [hreverse, hid, Value.asText?]

/-- The context of an entity with a plain schema: prefixes, then terms. -/
theorem entityContext_plain (config : Config) (hs : p.entity.schema.Plain ns class_)
    (hbind : p.fragment.bindVars = .empty) :
    entityContext ns config p =
      ns.members ++ p.entity.schema.context.map (termMember p.entity.schema) := by
  have henter : ∀ (context : Object), ∀ member ∈ p.entity.schema.context,
      enterTerm p.entity.schema context member =
        context.insert (termMember p.entity.schema member).1
          (termMember p.entity.schema member).2 := by
    rintro context ⟨key, v⟩ hmember
    obtain ⟨hword, -⟩ := hs.names key (List.mem_map.mpr ⟨_, hmember, rfl⟩)
    obtain ⟨w, hplain, -⟩ := hs.definitions key v hmember
    unfold enterTerm termMember
    dsimp only
    rw [if_neg (by simp [hword])]
    cases hplain <;> rfl
  have hnodup : (ns.members.keys ++
      Assoc.keys (p.entity.schema.context.map (termMember p.entity.schema))).Nodup := by
    have hkeys : Assoc.keys (p.entity.schema.context.map (termMember p.entity.schema)) =
        p.entity.schema.context.keys := by simp [Assoc.keys, termMember]
    rw [hkeys, ns.keys_members]
    refine List.nodup_append.mpr ⟨ns.nodup_names, hs.keys, ?_⟩
    rintro name hname _ hkey rfl
    obtain ⟨e, he, rfl⟩ := List.mem_map.mp hname
    have hstem : ns.get? e.1 = some e.2 := Namespaces.get?_eq_some.mpr he
    rw [(hs.names e.1 hkey).2] at hstem
    cases hstem
  unfold entityContext
  rw [hbind, show (KeyVars.empty.keys : List String) = [] from rfl, List.foldl_nil]
  refine (List.foldl_ext _ (fun context member => Assoc.insert context
    (termMember p.entity.schema member).1 (termMember p.entity.schema member).2) _ henter).trans ?_
  exact (List.foldl_map ..).symm.trans (Assoc.foldl_insert _ _ hnodup)

/-- Setting a key or not leaves what stands under the others. -/
theorem get?_insert_if (b : Bool) (m : Object) {key other : String} (v : Value)
    (h : key ≠ other) : Assoc.get? (if b then m.insert key v else m) other = m.get? other := by
  cases b
  · rfl
  · simp [Assoc.get?_insert, h]

/-- The entry of a reference that is typed as an identity if at all is typed so. -/
theorem get?_termEntry_type {kind : Kind} {entry : Object} (hkind : kind.isReference = true)
    (htype : entry.get? "@type" = none ∨ entry.get? "@type" = some (.str "@id")) :
    Assoc.get? (termEntry kind entry) "@type" = some (.str "@id") := by
  have htyped : isStringTyped entry = false := by
    unfold isStringTyped
    rcases htype with h | h <;> rw [h] <;> decide +kernel
  unfold termEntry
  dsimp only
  rw [get?_insert_if _ _ _ (by decide), htyped]
  rcases htype with h | h <;> simp [hkind, Assoc.contains, h, Assoc.get?_insert]

/-- The entry of a key without a container has none unless the key is an array. -/
theorem get?_termEntry_container {kind : Kind} {entry : Object} (hkeys : entry.keys.Nodup)
    (hkind : kind.isArray = false) (h : entry.get? "@container" = none) :
    Assoc.get? (termEntry kind entry) "@container" = none := by
  unfold termEntry
  dsimp only
  rw [hkind, if_neg (by decide), get?_insert_if _ _ _ (by decide)]
  split
  · rw [Assoc.get?_swapErase_of_ne hkeys (by decide), h]
  · exact h

section

variable (config) (hns : ns.Plain) (hs : p.entity.schema.Plain ns class_)
  (hbind : p.fragment.bindVars = .empty)

include hns in
/-- The stems of a map are IRIs in full. -/
theorem full_of_get? {name stem : String} (h : ns.get? name = some stem) :
    Context.Full stem := by
  obtain ⟨hparts, habsolute⟩ := hns.full _ (Namespaces.get?_eq_some.mp h)
  exact ⟨hparts, habsolute⟩

include hs hbind in
/-- A prefix of the map is a prefix of the context. -/
theorem localTarget?_prefix {name stem : String} (h : ns.get? name = some stem) :
    Context.localTarget? (entityContext ns config p) name = some stem := by
  have hnone : p.entity.schema.context.get? name = none := by
    refine Assoc.get?_eq_none_iff.mpr fun hmem => ?_
    rw [(hs.names name hmem).2] at h
    cases h
  unfold Context.localTarget?
  rw [get?_entityContext hs.keys, hbind, if_neg (by simp [KeyVars.keys, KeyVars.empty]), hnone, h]
  rfl

include hns hs hbind in
/-- A name under a prefix is followed to its expansion. -/
theorem resolve_prefixed {w : String} (hw : PlainPredicate ns class_ w) :
    Context.Settled (entityContext ns config p) .empty w ∧
      Context.resolve (entityContext ns config p) .empty none w = .ok (ns.expand w) := by
  obtain ⟨name, rest, stem, hparts, hstem⟩ := hw.prefixed
  have hword : Iri.isKeyword w = false := by
    rw [Iri.isKeyword_of_parts hparts]
    exact hns.words _ (Namespaces.get?_eq_some.mp hstem)
  have htarget := localTarget?_prefix config hs hbind hstem
  have hfull := full_of_get? hns hstem
  refine ⟨.compact hword hparts htarget hfull.own, ?_⟩
  rw [show ns.expand w = stem ++ rest by simp [Namespaces.expand, hparts, hstem]]
  exact Context.follow_compact hword hparts htarget hfull.own (by simp) (by simp) _

include hns hs hbind in
/-- Every definition of the context is settled. -/
theorem settled_of_target {name target : String}
    (h : Context.localTarget? (entityContext ns config p) name = some target) :
    Context.Settled (entityContext ns config p) .empty target := by
  cases hkey : p.entity.schema.context.get? name with
  | none =>
      unfold Context.localTarget? at h
      rw [get?_entityContext hs.keys, hbind, if_neg (by simp [KeyVars.keys, KeyVars.empty]),
        hkey] at h
      cases hstem : ns.get? name with
      | none => simp [hstem] at h
      | some stem =>
          simp only [hstem, Option.bind_none, Option.map_some, Option.none_or,
            Option.some.injEq] at h
          exact .own (h ▸ full_of_get? hns hstem).own
  | some v =>
      have hmem := Assoc.mem_of_get? hkey
      obtain ⟨w, hplain, hw⟩ := hs.definitions name v hmem
      obtain ⟨hsettled, -⟩ := resolve_prefixed config hns hs hbind hw
      have hget : Assoc.get? (entityContext ns config p) name =
          some (termMember p.entity.schema (name, v)).2 := by
        refine Assoc.get?_of_mem nodup_entityContext ?_
        rw [entityContext_plain config hs hbind]
        exact List.mem_append_right _ (List.mem_map.mpr ⟨_, hmem, rfl⟩)
      unfold Context.localTarget? at h
      rw [hget] at h
      cases plainEntry_spec hplain with
      | entry hkeys hnames hid htype =>
          simp only [termMember] at h
          rw [get?_termEntry hkeys _ (by decide) (by decide), hid] at h
          obtain rfl : w = target := by simpa [Value.asText?] using h
          exact hsettled

include hns hs hbind in
/-- The member of a key defines a term for the predicate of the key. -/
theorem define_termMember (hscalar : ∀ key, (p.entity.schema.kindOf key).isArray = false)
    {member : String × Value} (hmember : member ∈ p.entity.schema.context) :
    ∃ iri d, p.entity.schema.mapping? ns member.1 = some ⟨iri, false⟩ ∧
      Context.define (Context.resolve (entityContext ns config p) .empty none) member.1
        (termMember p.entity.schema member).2 = .ok d ∧
      d.StandsFor (p.entity.schema.kindOf member.1) iri := by
  obtain ⟨key, v⟩ := member
  obtain ⟨w, hplain, hw⟩ := hs.definitions key v hmember
  obtain ⟨-, hresolve⟩ := resolve_prefixed config hns hs hbind hw
  have hmapping := mapping?_of_plain ns (Assoc.get?_of_mem hs.keys hmember) hplain
  cases plainEntry_spec hplain with
  | entry hkeys hnames hid htype =>
      have hno : ∀ name, name ≠ "@id" → name ≠ "@type" →
          Assoc.get? (plainEntry v) name = none := fun name hid htype =>
        Assoc.get?_eq_none_iff.mpr fun hmem => (hnames name hmem).elim hid htype
      obtain ⟨c, hc⟩ := Context.coercionOf_total
        (Context.resolve_total fun _ _ _ h => settled_of_target config hns hs hbind h)
        (Assoc.get? (termEntry (p.entity.schema.kindOf key) (plainEntry v)) "@type")
      refine ⟨ns.expand w, ⟨some (ns.expand w), c, none, none, none⟩, hmapping, ?_, ?_⟩
      · unfold Context.define termMember
        dsimp only
        rw [get?_termEntry hkeys _ (by decide) (by decide), hno _ (by decide) (by decide),
          get?_termEntry hkeys _ (by decide) (by decide), hid,
          get?_termEntry_container hkeys (hscalar key) (hno _ (by decide) (by decide)), hc]
        simp [Context.reverseOf, Context.iriOf, hresolve, Context.containerOf?, bind, Except.bind]
      · refine ⟨rfl, rfl, rfl, fun hkind => ?_⟩
        rw [get?_termEntry_type hkind (htype hkind)] at hc
        exact (Except.ok.inj hc).symm

include hns in
/-- A prefix defines a term for its stem. -/
theorem define_stem {e : String × String} (he : e ∈ ns.entries) (members : Object) :
    Context.define (Context.resolve members .empty none) e.1 (.str e.2) = .ok (.ofIri e.2) :=
  Context.define_own (full_of_get? hns (Namespaces.get?_eq_some.mpr he)).own e.1

include hns hs hbind in
/-- **The context of a plain schema is accepted and spelled out.** -/
theorem exists_spells (hscalar : ∀ key, (p.entity.schema.kindOf key).isArray = false) :
    ∃ ctx, Context.parse .empty (.obj (entityContext ns config p)) = .ok ctx ∧
      ctx.Spells ns p.entity.schema := by
  have hcontext := entityContext_plain config hs hbind
  have hterm := fun member (hmember : member ∈ p.entity.schema.context) =>
    define_termMember config hns hs hbind hscalar hmember
  have hmembers : ∀ member ∈ entityContext ns config p, Iri.isKeyword member.1 = false ∧
      ∃ d, Context.define (Context.resolve (entityContext ns config p) .empty none) member.1
        member.2 = .ok d := by
    intro member hmember
    rw [hcontext, List.mem_append] at hmember
    rcases hmember with hmember | hmember
    · obtain ⟨e, he, rfl⟩ := List.mem_map.mp hmember
      exact ⟨hns.words e he, _, define_stem hns he _⟩
    · obtain ⟨source, hsource, rfl⟩ := List.mem_map.mp hmember
      obtain ⟨_, d, _, hd, _⟩ := hterm source hsource
      exact ⟨(hs.names source.1 (List.mem_map.mpr ⟨_, hsource, rfl⟩)).1, d, hd⟩
  have hscopes : ∀ key entry, (key, .obj entry) ∈ entityContext ns config p →
      Assoc.get? entry "@context" = none := by
    intro key entry hmember
    rw [hcontext, List.mem_append] at hmember
    rcases hmember with hmember | hmember
    · obtain ⟨e, _, heq⟩ := List.mem_map.mp hmember
      cases heq
    · obtain ⟨⟨k, v⟩, hsource, heq⟩ := List.mem_map.mp hmember
      obtain ⟨rfl, rfl⟩ :
          k = key ∧ termEntry (p.entity.schema.kindOf k) (plainEntry v) = entry := by
        simpa [termMember] using heq
      obtain ⟨w, hplain, -⟩ := hs.definitions k v hsource
      cases plainEntry_spec hplain with
      | entry hkeys hnames =>
          rw [get?_termEntry hkeys _ (by decide) (by decide), Assoc.get?_eq_none_iff]
          exact fun hmem => (hnames _ hmem).elim (by decide) (by decide)
  have hparse := Context.parse_plain nodup_entityContext hmembers hscopes
  generalize hresolve : Context.resolve (entityContext ns config p) .empty none = resolve
    at hparse hterm
  refine ⟨_, hparse, rfl,
    fun member => Context.defined resolve (termMember p.entity.schema member), ?_, ?_⟩
  · rw [hcontext, List.map_append, List.map_map]
    unfold Namespaces.members
    rw [List.map_map]
    refine congrArg₂ _ (List.map_congr_left fun e he => ?_) rfl
    rw [Function.comp_apply, ← hresolve, Context.defined_eq (define_stem hns he _)]
  · intro member hmember
    obtain ⟨iri, d, hmapping, hd, hstands⟩ := hterm member hmember
    have hdefined : Context.defined resolve (termMember p.entity.schema member) = d :=
      Context.defined_eq hd
    refine ⟨iri, hmapping, ?_⟩
    dsimp only
    rw [hdefined]
    exact hstands

end

end Decode

/-! ## Short names -/

/-- Prefixes in front of other terms are in front of these with their stems. -/
theorem Context.exactTerms_prefixes {ctx : Context} {prefixes : List (String × String)}
    {behind : List (String × Definition)}
    (hterms : ctx.terms = prefixes.map (fun e => (e.1, Definition.ofIri e.2)) ++ behind) :
    ctx.exactTerms =
      prefixes.map (fun e => (e.2, e.1)) ++ exactTerms { ctx with terms := behind } := by
  unfold exactTerms
  rw [hterms, List.filterMap_append, List.filterMap_map]
  exact congrArg (· ++ _) (congrFun List.filterMap_eq_map prefixes)

/-- A context whose terms are prefixes, and then others that are no namespaces, has the
compact forms that the prefixes with namespaces have. -/
theorem Context.compactForms_prefixes {ctx : Context} {prefixes others : List (String × String)}
    (hexact : ctx.exactTerms = prefixes.map (fun e => (e.2, e.1)) ++ others)
    (hothers : ∀ e ∈ others, Iri.isNamespace e.1 = false) (iri : String) :
    ctx.compactForms iri =
      (prefixes.filter fun e => Iri.isNamespace e.2).filterMap (Namespaces.candidate? iri) := by
  have hnone : others.filterMap (formOf? iri) = [] := by
    refine List.filterMap_eq_nil_iff.mpr fun e he => ?_
    simp [formOf?, hothers e he]
  rw [compactForms_eq, hexact, List.filterMap_append, hnone, List.append_nil,
    List.filterMap_map, List.filterMap_filter]
  refine List.filterMap_congr fun e _ => ?_
  cases hnamespace : Iri.isNamespace e.2 with
  | false => simp [formOf?, hnamespace]
  | true =>
      have hstem : e.2 ≠ "" := Iri.ne_empty_of_isNamespace hnamespace
      simp [formOf?, Namespaces.candidate?, hnamespace, hstem]

namespace Context.Spells

variable {ns : Namespaces} {s : Schema} {ctx : Context} {class_ : String}

/-- The terms of a plain context, each with its IRI: the prefixes, then the keys. -/
theorem exactTerms_eq (h : ctx.Spells ns s) : ∃ predicates : List (String × String),
    ctx.exactTerms = ns.entries.map (fun e => (e.2, e.1)) ++ predicates ∧
      ∀ e ∈ predicates, s.mapping? ns e.2 = some ⟨e.1, false⟩ := by
  obtain ⟨term, hterms, hstands⟩ := h.terms
  refine ⟨_, exactTerms_prefixes hterms, ?_⟩
  · intro e he
    obtain ⟨t, ht, htermed⟩ := List.mem_filterMap.mp he
    obtain ⟨m, hm, rfl⟩ := List.mem_map.mp ht
    obtain ⟨iri, hmapping, hd⟩ := hstands m hm
    simp only [Definition.isReverse, hd.forward, Option.isSome_none, hd.iri,
      Option.map_some] at htermed
    cases htermed
    exact hmapping

section

variable (h : ctx.Spells ns s) (hns : ns.Plain) (hs : s.Plain ns class_)

include hs in
/-- The predicate of a key is a plain one. -/
theorem plainPredicate {key : String} {m : Mapping} (hm : s.mapping? ns key = some m) :
    ∃ w, m = ⟨ns.expand w, false⟩ ∧ PlainPredicate ns class_ w := by
  cases hv : s.context.get? key with
  | none => simp [Schema.mapping?, hv] at hm
  | some v =>
      obtain ⟨w, hplain, hw⟩ := hs.definitions key v (Assoc.mem_of_get? hv)
      rw [Decode.mapping?_of_plain ns hv hplain] at hm
      exact ⟨w, (Option.some.inj hm).symm, hw⟩

include h hns hs in
/-- The compact form of an IRI is the one that the namespace map has. -/
theorem compactForm?_eq (iri : String) :
    ctx.compactForm? iri = (ns.split? iri).map fun parts => parts.1 ++ ":" ++ parts.2 := by
  obtain ⟨predicates, hexact, hpredicates⟩ := h.exactTerms_eq
  have hothers : ∀ e ∈ predicates, Iri.isNamespace e.1 = false := by
    intro e he
    obtain ⟨w, hw, hplain⟩ := plainPredicate hs (hpredicates e he)
    rw [show e.1 = ns.expand w from congrArg Mapping.iri hw]
    exact hplain.notNamespace
  have hforms : ctx.compactForms iri = ns.entries.filterMap (Namespaces.candidate? iri) := by
    rw [compactForms_prefixes hexact hothers, List.filter_eq_self.mpr hns.stems]
  unfold compactForm? Namespaces.split?
  rw [hforms]

include h hns hs in
/-- **Identities get the short form of the namespace map.** -/
theorem compactId_eq (iri : String) : ctx.compactId iri = ns.abbreviate iri := by
  unfold compactId Namespaces.abbreviate
  rw [h.compactForm?_eq hns hs]
  cases ns.split? iri <;> rfl

include h hns hs in
/-- **The class gets the short form of the namespace map.** -/
theorem compactVocab_eq : ctx.compactVocab class_ = ns.abbreviate class_ := by
  have hexact : (if Iri.isNamespace class_ then none else ctx.exactTerm? class_) = none := by
    cases hclass : Iri.isNamespace class_ with
    | true => rfl
    | false =>
        obtain ⟨predicates, hexact, hpredicates⟩ := h.exactTerms_eq
        rw [if_neg (by decide)]
        unfold exactTerm?
        rw [Assoc.get?_eq_none_iff, hexact]
        intro hmem
        obtain ⟨e, he, rfl⟩ := List.mem_map.mp hmem
        rcases List.mem_append.mp he with he | he
        · obtain ⟨entry, hentry, rfl⟩ := List.mem_map.mp he
          rw [hns.stems entry hentry] at hclass
          cases hclass
        · obtain ⟨w, hw, hplain⟩ := plainPredicate hs (hpredicates e he)
          exact hplain.notClass (congrArg Mapping.iri hw).symm
  unfold compactVocab Namespaces.abbreviate
  rw [hexact, h.compactForm?_eq hns hs]
  cases ns.split? class_ with
  | some parts => rfl
  | none => simp [vocabName?, h.vocab]

include h hns hs in
/-- **A predicate gets the name of its key.** -/
theorem termFor?_eq
    (hdistinct : ∀ key key' m m', s.mapping? ns key = some m → s.mapping? ns key' = some m' →
      m.iri = m'.iri → key = key')
    {key : String} {m : Mapping} (hm : s.mapping? ns key = some m) :
    m.reverse = false ∧ ∃ d, ctx.termFor? m.iri = some (key, d) ∧
      d.StandsFor (s.kindOf key) m.iri := by
  obtain ⟨w, rfl, hplain⟩ := plainPredicate hs hm
  refine ⟨rfl, ?_⟩
  obtain ⟨term, hterms, hstands⟩ := h.terms
  have hprefixes : (ns.entries.map fun e => (e.1, Definition.ofIri e.2)).find?
      (fun e => !e.2.isReverse && e.2.iri == some (ns.expand w)) = none := by
    refine List.find?_eq_none.mpr fun t ht => ?_
    obtain ⟨e, he, rfl⟩ := List.mem_map.mp ht
    have hne : e.2 ≠ ns.expand w := by
      intro heq
      have hnamespace := hns.stems e he
      rw [heq, hplain.notNamespace] at hnamespace
      cases hnamespace
    simp [Definition.ofIri, Definition.isReverse, Definition.empty, hne]
  unfold termFor?
  rw [hterms, List.find?_append, hprefixes, Option.none_or]
  cases hfound : (s.context.map fun m => (m.1, term m)).find?
      (fun e => !e.2.isReverse && e.2.iri == some (ns.expand w)) with
  | none =>
      obtain ⟨v, hv⟩ : ∃ v, s.context.get? key = some v := by
        cases hv : s.context.get? key with
        | none => simp [Schema.mapping?, hv] at hm
        | some v => exact ⟨v, rfl⟩
      obtain ⟨iri, hmapping, hd⟩ := hstands (key, v) (Assoc.mem_of_get? hv)
      obtain rfl : iri = ns.expand w := by simpa [hm] using hmapping.symm
      have hmiss := List.find?_eq_none.mp hfound (key, term (key, v))
        (List.mem_map.mpr ⟨_, Assoc.mem_of_get? hv, rfl⟩)
      simp [Definition.isReverse, hd.forward, hd.iri] at hmiss
  | some found =>
      obtain ⟨member, hmember, rfl⟩ := List.mem_map.mp (List.mem_of_find?_eq_some hfound)
      obtain ⟨iri, hmapping, hd⟩ := hstands member hmember
      have hsame : iri = ns.expand w := by
        have htest := List.find?_some hfound
        simpa [Definition.isReverse, hd.forward, hd.iri] using htest
      subst hsame
      obtain rfl := hdistinct _ _ _ _ hmapping hm rfl
      exact ⟨_, rfl, hd⟩

end

end Context.Spells

end ObjectGraph
