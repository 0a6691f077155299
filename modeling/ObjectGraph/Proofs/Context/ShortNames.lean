import ObjectGraph.Context.Compact
import ObjectGraph.Proofs.LongestStem

/-!
# The most specific short names

A namespace that a term stands for divides an IRI if it leaves a local part
(`Context.Divides`).  As an identity an IRI is written behind the longest of these
namespaces and under the first term for it (`Context.LongestNamespace`,
`Context.compactId_eq_iff`); as a word of the vocabulary it is its first term, if it is no
namespace itself, else the same compact form, else what is behind the vocabulary
(`Context.compactVocab_eq_iff`).
-/

namespace ObjectGraph

namespace Iri

/-- A namespace has an end, and so is not empty. -/
theorem ne_empty_of_isNamespace {s : String} (h : isNamespace s = true) : s ≠ "" := by
  rintro rfl
  exact absurd h (by decide +kernel)

/-- The shortest of what entries become is that of an entry behind which nothing is
shorter, and in front of which everything is longer. -/
theorem shortest?_filterMap {entries : List (String × String)}
    {form? : String × String → Option (String × String)} {c : String × String} :
    shortest? (entries.filterMap form?) = some c ↔
      ∃ before e behind, entries = before ++ e :: behind ∧ form? e = some c ∧
        (∀ d ∈ before, ∀ x, form? d = some x → c.2.length < x.2.length) ∧
        ∀ d ∈ behind, ∀ x, form? d = some x → c.2.length ≤ x.2.length := by
  rw [shortest?_eq_some_iff]
  constructor
  · rintro ⟨before, behind, heq, hbefore, hbehind⟩
    obtain ⟨front, rest, rfl, rfl, hrest⟩ := List.filterMap_eq_append_iff.mp heq
    obtain ⟨skipped, e, more, rfl, hskipped, he, rfl⟩ := List.filterMap_eq_cons_iff.mp hrest
    refine ⟨front ++ skipped, e, more, by simp, he, ?_, ?_⟩
    · intro d hd x hx
      rcases List.mem_append.mp hd with hd | hd
      · exact hbefore x (List.mem_filterMap.mpr ⟨d, hd, hx⟩)
      · rw [hskipped d hd] at hx
        cases hx
    · exact fun d hd x hx => hbehind x (List.mem_filterMap.mpr ⟨d, hd, hx⟩)
  · rintro ⟨before, e, behind, rfl, he, hbefore, hbehind⟩
    refine ⟨before.filterMap form?, behind.filterMap form?, by simp [he], ?_, ?_⟩
    · intro x hx
      obtain ⟨d, hd, hx⟩ := List.mem_filterMap.mp hx
      exact hbefore d hd x hx
    · intro x hx
      obtain ⟨d, hd, hx⟩ := List.mem_filterMap.mp hx
      exact hbehind d hd x hx

end Iri

/-- The value that is found stands behind entries of other keys. -/
theorem Assoc.exists_of_get? {α : Type} {m : Assoc α} {key : String} {value : α}
    (h : m.get? key = some value) :
    ∃ before behind, m = before ++ (key, value) :: behind ∧ key ∉ Assoc.keys before := by
  induction m with
  | nil => cases h
  | cons e rest ih =>
      obtain ⟨k, v⟩ := e
      unfold Assoc.get? at h
      split at h
      next heq => exact ⟨[], rest, by rw [heq, Option.some.inj h]; rfl, by simp [Assoc.keys]⟩
      next hne =>
        obtain ⟨before, behind, rfl, hbefore⟩ := ih h
        exact ⟨(k, v) :: before, behind, rfl, by simpa [Assoc.keys, Ne.symm hne] using hbefore⟩

/-- A definition that is not reverse maps its term to an IRI. -/
def Definition.MapsTo (d : Definition) (iri : String) : Prop :=
  d.reverse = none ∧ d.iri = some iri

namespace Context

variable {ctx : Context} {iri name stem rest : String}

/-! ## First terms -/

/-- The first term, not reverse, that is mapped to an IRI. -/
def FirstTerm (ctx : Context) (iri term : String) : Prop :=
  ∃ before d behind, ctx.terms = before ++ (term, d) :: behind ∧ d.MapsTo iri ∧
    ∀ e ∈ before, ¬ e.2.MapsTo iri

/-- A term is exact for an IRI if its definition maps it to that IRI. -/
theorem mapsTo_iff {d : Definition} :
    (!d.isReverse && d.iri == some iri) = true ↔ d.MapsTo iri := by
  simp [Definition.isReverse, Definition.MapsTo]

/-- The exact terms are the terms with the IRIs they are mapped to. -/
theorem mem_exactTerms {e : String × String} :
    e ∈ ctx.exactTerms ↔ ∃ t ∈ ctx.terms, t.1 = e.2 ∧ t.2.MapsTo e.1 := by
  obtain ⟨iri, term⟩ := e
  unfold exactTerms
  rw [List.mem_filterMap]
  refine exists_congr fun t => and_congr_right fun _ => ?_
  cases hreverse : t.2.reverse <;>
    simp [Definition.isReverse, Definition.MapsTo, hreverse, and_comm]

/-- The exact term of an IRI is the first one that is mapped to it. -/
theorem exactTerm?_eq (ctx : Context) (iri : String) :
    ctx.exactTerm? iri = (ctx.termFor? iri).map (·.1) := by
  unfold exactTerm? exactTerms termFor?
  induction ctx.terms with
  | nil => rfl
  | cons t rest ih =>
      obtain ⟨term, d⟩ := t
      rw [List.filterMap_cons, List.find?_cons]
      cases hreverse : d.isReverse with
      | true => simpa [hreverse] using ih
      | false =>
          cases hiri : d.iri with
          | none => simpa [hreverse, hiri] using ih
          | some i =>
              by_cases h : i = iri
              · simp [Assoc.get?, h]
              · simpa [hreverse, hiri, Assoc.get?, h, beq_eq_false_iff_ne.mpr h] using ih

/-- **The term of an IRI** is the first one. -/
theorem exactTerm?_eq_some_iff {term : String} :
    ctx.exactTerm? iri = some term ↔ ctx.FirstTerm iri term := by
  rw [exactTerm?_eq, Option.map_eq_some_iff]
  unfold termFor?
  constructor
  · rintro ⟨⟨_, d⟩, hfind, rfl⟩
    obtain ⟨hd, before, behind, hterms, hbefore⟩ := List.find?_eq_some_iff_append.mp hfind
    refine ⟨before, d, behind, hterms, mapsTo_iff.mp hd, fun e he hmaps => ?_⟩
    have hmiss := hbefore e he
    rw [mapsTo_iff.mpr hmaps] at hmiss
    cases hmiss
  · rintro ⟨before, d, behind, hterms, hd, hbefore⟩
    refine ⟨(term, d), List.find?_eq_some_iff_append.mpr ⟨mapsTo_iff.mpr hd, before, behind,
      hterms, fun e he => ?_⟩, rfl⟩
    rw [Bool.not_eq_true', ← Bool.not_eq_true, mapsTo_iff]
    exact hbefore e he

/-- An IRI has no exact term if no term is mapped to it. -/
theorem exactTerm?_eq_none_iff : ctx.exactTerm? iri = none ↔ ∀ term, ¬ ctx.FirstTerm iri term := by
  simp only [← exactTerm?_eq_some_iff, Option.eq_none_iff_forall_ne_some, ne_eq]

/-! ## The longest namespace -/

/-- A namespace that some term, not reverse, is mapped to stands in front of an IRI and
leaves a local part. -/
structure Divides (ctx : Context) (iri stem rest : String) : Prop where
  mapped : ∃ t ∈ ctx.terms, t.2.MapsTo stem
  isNamespace : Iri.isNamespace stem = true
  splits : Namespaces.Splits iri stem rest

/-- The longest namespace that divides an IRI, with the first term for it. -/
structure LongestNamespace (ctx : Context) (iri name stem rest : String) : Prop where
  divides : ctx.Divides iri stem rest
  first : ctx.FirstTerm stem name
  longest : ∀ other more, ctx.Divides iri other more → other.length ≤ stem.length

/-- The compact form of an IRI behind the namespace of an entry. -/
def formOf? (iri : String) (e : String × String) : Option (String × String) :=
  if Iri.isNamespace e.1 then (Iri.localPart? e.1 iri).map fun rest => (e.2, rest) else none

/-- The compact forms of an IRI come from the exact terms. -/
theorem compactForms_eq (ctx : Context) (iri : String) :
    ctx.compactForms iri = ctx.exactTerms.filterMap (formOf? iri) :=
  rfl

/-- An entry has a compact form if its namespace splits the IRI. -/
theorem formOf?_eq_some_iff {e c : String × String} :
    formOf? iri e = some c ↔
      e.2 = c.1 ∧ Iri.isNamespace e.1 = true ∧ Namespaces.Splits iri e.1 c.2 := by
  unfold formOf?
  split
  next hnamespace =>
    have hstem := Iri.ne_empty_of_isNamespace hnamespace
    rw [Option.map_eq_some_iff]
    constructor
    · rintro ⟨rest, hlocal, rfl⟩
      exact ⟨rfl, hnamespace, (Namespaces.localPart?_eq_some_iff hstem).mp hlocal⟩
    · rintro ⟨hname, -, h⟩
      exact ⟨c.2, (Namespaces.localPart?_eq_some_iff hstem).mpr h, by rw [hname]⟩
  next hother => simp [hother]

/-- An entry has a form for an IRI if its namespace divides the IRI. -/
theorem divides_of_formOf? {e c : String × String} (he : e ∈ ctx.exactTerms)
    (h : formOf? iri e = some c) : ctx.Divides iri e.1 c.2 := by
  obtain ⟨-, hnamespace, hsplits⟩ := formOf?_eq_some_iff.mp h
  obtain ⟨t, ht, -, hmaps⟩ := mem_exactTerms.mp he
  exact ⟨⟨t, ht, hmaps⟩, hnamespace, hsplits⟩

/-- A namespace that divides an IRI gives it a compact form. -/
theorem Divides.exists_form (h : ctx.Divides iri stem rest) :
    ∃ name, (stem, name) ∈ ctx.exactTerms ∧ formOf? iri (stem, name) = some (name, rest) := by
  obtain ⟨⟨t, ht, hmaps⟩, hnamespace, hsplits⟩ := h
  exact ⟨t.1, mem_exactTerms.mpr ⟨t, ht, rfl, hmaps⟩,
    formOf?_eq_some_iff.mpr ⟨rfl, hnamespace, hsplits⟩⟩

/-- **The shortest of the compact forms** is that of the longest namespace. -/
theorem shortest?_compactForms :
    Iri.shortest? (ctx.compactForms iri) = some (name, rest) ↔
      ∃ stem, ctx.LongestNamespace iri name stem rest := by
  rw [compactForms_eq, Iri.shortest?_filterMap]
  constructor
  · rintro ⟨before, ⟨stem, term⟩, behind, hentries, he, hbefore, hbehind⟩
    have hdivides : ctx.Divides iri stem rest := divides_of_formOf? (by simp [hentries]) he
    obtain rfl : term = name := (formOf?_eq_some_iff.mp he).1
    refine ⟨stem, hdivides, exactTerm?_eq_some_iff.mp ?_, ?_⟩
    · -- The same stem further in front would leave the same local part.
      have hfirst : stem ∉ Assoc.keys before := by
        intro hmem
        obtain ⟨⟨_, other⟩, hother, rfl⟩ := List.mem_map.mp hmem
        have hform := formOf?_eq_some_iff (c := (other, rest)).mpr
          ⟨rfl, hdivides.isNamespace, hdivides.splits⟩
        exact Nat.lt_irrefl _ (hbefore _ hother (other, rest) hform)
      unfold exactTerm?
      rw [hentries, Assoc.get?_append, Assoc.get?_eq_none_iff.mpr hfirst]
      simp [Assoc.get?]
    · intro other more hother
      obtain ⟨term', hmem, hform⟩ := hother.exists_form
      rw [hdivides.splits.length_le_iff hother.splits]
      rw [hentries] at hmem
      rcases List.mem_append.mp hmem with hmem | hmem
      · exact Nat.le_of_lt (hbefore _ hmem _ hform)
      · rcases List.mem_cons.mp hmem with heq | hmem
        · rw [heq, he] at hform
          exact Nat.le_of_eq (congrArg (·.2.length) (Option.some.inj hform))
        · exact hbehind _ hmem _ hform
  · rintro ⟨stem, h⟩
    obtain ⟨before, behind, hentries, hfirst⟩ :=
      Assoc.exists_of_get? (exactTerm?_eq_some_iff.mpr h.first)
    have hshortest : ∀ d ∈ ctx.exactTerms, ∀ x, formOf? iri d = some x →
        rest.length ≤ x.2.length := fun d hd x hx =>
      (h.divides.splits.length_le_iff (divides_of_formOf? hd hx).splits).mp
        (h.longest _ _ (divides_of_formOf? hd hx))
    refine ⟨before, (stem, name), behind, hentries,
      formOf?_eq_some_iff.mpr ⟨rfl, h.divides.isNamespace, h.divides.splits⟩, ?_, ?_⟩
    · intro d hd x hx
      have hmem : d ∈ ctx.exactTerms := by simp [hentries, hd]
      refine Nat.lt_of_le_of_ne (hshortest d hmem x hx) fun hlength => hfirst ?_
      have hdivides := divides_of_formOf? hmem hx
      have hle := (hdivides.splits.length_le_iff h.divides.splits).mpr (Nat.le_of_eq hlength.symm)
      have hge := h.longest _ _ hdivides
      obtain ⟨hstem, -⟩ := h.divides.splits.eq_of_length hdivides.splits (Nat.le_antisymm hge hle)
      exact List.mem_map.mpr ⟨d, hd, hstem⟩
    · exact fun d hd x hx => hshortest d (by simp [hentries, hd]) x hx

/-- The compact form of an IRI is behind the longest namespace. -/
theorem compactForm?_eq_some (h : ctx.LongestNamespace iri name stem rest) :
    ctx.compactForm? iri = some (name ++ ":" ++ rest) := by
  unfold compactForm?
  rw [shortest?_compactForms.mpr ⟨stem, h⟩]
  rfl

/-- An IRI has no compact form if no namespace divides it. -/
theorem compactForm?_eq_none_iff :
    ctx.compactForm? iri = none ↔ ∀ stem rest, ¬ ctx.Divides iri stem rest := by
  unfold compactForm?
  rw [Option.map_eq_none_iff, ← Option.not_isSome_iff_eq_none, Iri.shortest?_isSome_iff,
    Decidable.not_not, compactForms_eq, List.filterMap_eq_nil_iff]
  constructor
  · intro hnone stem rest h
    obtain ⟨name, hmem, hform⟩ := h.exists_form
    rw [hnone _ hmem] at hform
    cases hform
  · intro hnone e he
    cases hform : formOf? iri e with
    | none => rfl
    | some c => exact (hnone _ _ (divides_of_formOf? he hform)).elim

/-- An IRI is divided by no namespace or by a longest one. -/
theorem exists_longest (ctx : Context) (iri : String) :
    (∀ stem rest, ¬ ctx.Divides iri stem rest) ∨
      ∃ name stem rest, ctx.LongestNamespace iri name stem rest := by
  cases hform : Iri.shortest? (ctx.compactForms iri) with
  | none => exact .inl (compactForm?_eq_none_iff.mp (by rw [compactForm?, hform]; rfl))
  | some parts =>
      obtain ⟨stem, h⟩ := shortest?_compactForms.mp hform
      exact .inr ⟨parts.1, stem, parts.2, h⟩

/-! ## Short names -/

/-- The short form of an IRI as an identity. -/
inductive ShortId (ctx : Context) (iri : String) : String → Prop
  | compact {name stem rest : String} (h : ctx.LongestNamespace iri name stem rest) :
      ShortId ctx iri (name ++ ":" ++ rest)
  | full (h : ∀ stem rest, ¬ ctx.Divides iri stem rest) : ShortId ctx iri iri

/-- The short form of an IRI as a word of the vocabulary. -/
inductive ShortName (ctx : Context) (iri : String) : String → Prop
  | term {term : String} (hplain : Iri.isNamespace iri = false) (h : ctx.FirstTerm iri term) :
      ShortName ctx iri term
  | compact {name stem rest : String}
      (hterm : Iri.isNamespace iri = false → ∀ term, ¬ ctx.FirstTerm iri term)
      (h : ctx.LongestNamespace iri name stem rest) : ShortName ctx iri (name ++ ":" ++ rest)
  | word {vocab rest : String}
      (hterm : Iri.isNamespace iri = false → ∀ term, ¬ ctx.FirstTerm iri term)
      (hnone : ∀ stem rest, ¬ ctx.Divides iri stem rest) (hvocab : ctx.vocab = some vocab)
      (happend : vocab ++ rest = iri) (hrest : rest ≠ "") : ShortName ctx iri rest
  | full (hterm : Iri.isNamespace iri = false → ∀ term, ¬ ctx.FirstTerm iri term)
      (hnone : ∀ stem rest, ¬ ctx.Divides iri stem rest)
      (hvocab : ∀ vocab rest, ctx.vocab = some vocab → vocab ++ rest = iri → rest = "") :
      ShortName ctx iri iri

/-- The name of an IRI in the vocabulary is what the vocabulary leaves of it. -/
theorem vocabName?_eq_some_iff :
    ctx.vocabName? iri = some rest ↔
      ∃ vocab, ctx.vocab = some vocab ∧ vocab ++ rest = iri ∧ rest ≠ "" := by
  unfold vocabName?
  cases ctx.vocab with
  | none => simp
  | some vocab =>
      have hlists : ∀ behind : List Char, vocab.toList.isPrefixOf? iri.toList = some behind ↔
          vocab ++ String.ofList behind = iri := by
        intro behind
        rw [List.isPrefixOf?_eq_some_iff_append_eq, ← String.toList_inj, String.toList_append,
          String.toList_ofList]
      simp only [Option.some.injEq, exists_eq_left']
      cases hstart : vocab.toList.isPrefixOf? iri.toList with
      | none =>
          simp only [reduceCtorEq, false_iff, not_and]
          intro happend
          have hsome := (hlists rest.toList).mpr (by rwa [String.ofList_toList])
          rw [hstart] at hsome
          cases hsome
      | some behind =>
          have happend := (hlists behind).mp hstart
          have hrest : vocab ++ rest = iri ↔ String.ofList behind = rest := by
            rw [← happend, ← String.toList_inj, String.toList_append, String.toList_append,
              List.append_cancel_left_eq, String.toList_inj, eq_comm]
          rw [hrest]
          cases behind with
          | nil => simp +contextual [eq_comm]
          | cons c behind =>
              simp only [Option.some.injEq]
              constructor
              · rintro rfl
                exact ⟨rfl, by simp [← String.toList_inj]⟩
              · exact fun h => h.1

/-- **Identities are written behind the longest namespace.** -/
theorem compactId_eq_iff : ctx.compactId iri = name ↔ ctx.ShortId iri name := by
  have hshort : ctx.ShortId iri (ctx.compactId iri) := by
    unfold compactId
    rcases ctx.exists_longest iri with hnone | ⟨name, stem, rest, h⟩
    · rw [compactForm?_eq_none_iff.mpr hnone]
      exact .full hnone
    · rw [compactForm?_eq_some h]
      exact .compact h
  constructor
  · exact fun h => h ▸ hshort
  · intro h
    unfold compactId
    cases h with
    | compact h => rw [compactForm?_eq_some h, Option.getD_some]
    | full hnone => rw [compactForm?_eq_none_iff.mpr hnone, Option.getD_none]

/-- A term that is asked for unless the IRI is a namespace is the first term of another IRI. -/
theorem exactTerm?_unless_iff {term : String} :
    (if Iri.isNamespace iri then none else ctx.exactTerm? iri) = some term ↔
      Iri.isNamespace iri = false ∧ ctx.FirstTerm iri term := by
  cases Iri.isNamespace iri <;> simp [exactTerm?_eq_some_iff]

/-- There is none if the IRI is a namespace or has no term. -/
theorem exactTerm?_unless_eq_none_iff :
    (if Iri.isNamespace iri then none else ctx.exactTerm? iri) = none ↔
      (Iri.isNamespace iri = false → ∀ term, ¬ ctx.FirstTerm iri term) := by
  cases Iri.isNamespace iri <;> simp [exactTerm?_eq_none_iff]

/-- **Words are written as terms**, else in compact form, else behind the vocabulary. -/
theorem compactVocab_eq_iff : ctx.compactVocab iri = name ↔ ctx.ShortName iri name := by
  have hshort : ctx.ShortName iri (ctx.compactVocab iri) := by
    unfold compactVocab
    cases hterm : (if Iri.isNamespace iri then none else ctx.exactTerm? iri) with
    | some term =>
        obtain ⟨hplain, h⟩ := exactTerm?_unless_iff.mp hterm
        exact .term hplain h
    | none =>
        have hterm := exactTerm?_unless_eq_none_iff.mp hterm
        rcases ctx.exists_longest iri with hnone | ⟨name, stem, rest, h⟩
        · rw [compactForm?_eq_none_iff.mpr hnone]
          dsimp only
          cases hword : ctx.vocabName? iri with
          | some rest =>
              obtain ⟨vocab, hvocab, happend, hrest⟩ := vocabName?_eq_some_iff.mp hword
              exact .word hterm hnone hvocab happend hrest
          | none =>
              refine .full hterm hnone fun vocab rest hvocab happend => ?_
              by_contra hrest
              rw [vocabName?_eq_some_iff.mpr ⟨vocab, hvocab, happend, hrest⟩] at hword
              cases hword
        · rw [compactForm?_eq_some h]
          exact .compact hterm h
  constructor
  · exact fun h => h ▸ hshort
  · intro h
    unfold compactVocab
    cases h with
    | term hplain h => rw [exactTerm?_unless_iff.mpr ⟨hplain, h⟩]
    | compact hterm h => rw [exactTerm?_unless_eq_none_iff.mpr hterm, compactForm?_eq_some h]
    | word hterm hnone hvocab happend hrest =>
        rw [exactTerm?_unless_eq_none_iff.mpr hterm, compactForm?_eq_none_iff.mpr hnone,
          vocabName?_eq_some_iff.mpr ⟨_, hvocab, happend, hrest⟩]
        rfl
    | full hterm hnone hvocab =>
        have hword : ctx.vocabName? iri = none := by
          rw [Option.eq_none_iff_forall_ne_some]
          intro rest hrest
          obtain ⟨vocab, hv, happend, hne⟩ := vocabName?_eq_some_iff.mp hrest
          exact hne (hvocab vocab rest hv happend)
        rw [exactTerm?_unless_eq_none_iff.mpr hterm, compactForm?_eq_none_iff.mpr hnone, hword]
        rfl

end Context

end ObjectGraph
