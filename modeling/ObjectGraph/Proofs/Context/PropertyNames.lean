import ObjectGraph.Proofs.Context.Returning

/-!
# Properties whose names return

A property is written under its first term, else under the short form of its IRI
(`Context.PropertyName`), and read as a word of the vocabulary: as a term, as a compact IRI,
or behind the vocabulary (`Context.Reads`).  Writing asks what stands for the IRI and does not
look at what else is named like the result, which reading does, and terms come first there.
So a name behind the vocabulary that is also a term is read as that term.

The name of a property comes back exactly in six cases (`Context.NameReturns`,
`Context.expand_propertyName_iff`).
-/

namespace ObjectGraph

namespace Context

variable {ctx : Context} {iri name : String}

/-! ## Reading names -/

/-- What a name stands for as a word of the vocabulary. -/
inductive Reads (ctx : Context) (name : String) : String → Prop
  | keyword (hword : Iri.isKeyword name = true) : Reads ctx name name
  | term {iri : String} (hword : Iri.isKeyword name = false)
      (hterm : ctx.iriOf? name = some iri) : Reads ctx name iri
  | compact {first rest stem : String} (hword : Iri.isKeyword name = false)
      (hterm : ctx.iriOf? name = none) (hparts : Iri.compactParts? name = some (first, rest))
      (hstem : ctx.iriOf? first = some stem) : Reads ctx name (stem ++ rest)
  | foreign {first rest : String} (hword : Iri.isKeyword name = false)
      (hterm : ctx.iriOf? name = none) (hparts : Iri.compactParts? name = some (first, rest))
      (hstem : ctx.iriOf? first = none) : Reads ctx name name
  | absolute (hword : Iri.isKeyword name = false) (hterm : ctx.iriOf? name = none)
      (hparts : Iri.compactParts? name = none) (habsolute : Iri.isAbsolute name = true) :
      Reads ctx name name
  | word (hword : Iri.isKeyword name = false) (hterm : ctx.iriOf? name = none)
      (hparts : Iri.compactParts? name = none) (habsolute : Iri.isAbsolute name = false) :
      Reads ctx name (ctx.vocab.getD "" ++ name)

/-- A word is expanded to what it stands for. -/
theorem Reads.expand (h : ctx.Reads name iri) : ctx.expand true name = iri := by
  cases h with
  | keyword hword => simp [Context.expand, hword]
  | term hword hterm => simp [Context.expand, hword, hterm]
  | compact hword hterm hparts hstem => simp [Context.expand, hword, hterm, hparts, hstem]
  | foreign hword hterm hparts hstem => simp [Context.expand, hword, hterm, hparts, hstem]
  | absolute hword hterm hparts habsolute =>
      simp [Context.expand, hword, hterm, hparts, habsolute]
  | word hword hterm hparts habsolute =>
      cases hvocab : ctx.vocab <;>
        simp [Context.expand, hword, hterm, hparts, habsolute, hvocab]

/-- Each name is read as something. -/
theorem exists_reads (ctx : Context) (name : String) : ∃ iri, ctx.Reads name iri := by
  cases hword : Iri.isKeyword name with
  | true => exact ⟨_, .keyword hword⟩
  | false =>
      cases hterm : ctx.iriOf? name with
      | some iri => exact ⟨_, .term hword hterm⟩
      | none =>
          cases hparts : Iri.compactParts? name with
          | some parts =>
              cases hstem : ctx.iriOf? parts.1 with
              | some stem => exact ⟨_, .compact hword hterm hparts hstem⟩
              | none => exact ⟨_, .foreign hword hterm hparts hstem⟩
          | none =>
              cases habsolute : Iri.isAbsolute name with
              | true => exact ⟨_, .absolute hword hterm hparts habsolute⟩
              | false => exact ⟨_, .word hword hterm hparts habsolute⟩

/-- **Names are read** as terms, as compact IRIs, or behind the vocabulary. -/
theorem expand_eq_iff : ctx.expand true name = iri ↔ ctx.Reads name iri := by
  refine ⟨fun h => ?_, Reads.expand⟩
  obtain ⟨i, hi⟩ := ctx.exists_reads name
  exact (hi.expand.symm.trans h) ▸ hi

/-! ## Names of properties -/

/-- The name under which the values of a property are written. -/
def propertyName (ctx : Context) (iri : String) : String :=
  ((ctx.termFor? iri).map (·.1)).getD (ctx.compactVocab iri)

/-- A property is named by its first term, else by the short form of its IRI. -/
inductive PropertyName (ctx : Context) (iri : String) : String → Prop
  | term {term : String} (h : ctx.FirstTerm iri term) : PropertyName ctx iri term
  | short {name : String} (hnone : ∀ term, ¬ ctx.FirstTerm iri term)
      (h : ctx.ShortName iri name) : PropertyName ctx iri name

/-- The name of a property is the one that its first term or its short form gives it. -/
theorem propertyName_eq_iff : ctx.propertyName iri = name ↔ ctx.PropertyName iri name := by
  unfold propertyName
  rw [← exactTerm?_eq]
  cases hterm : ctx.exactTerm? iri with
  | some term =>
      have hfirst := exactTerm?_eq_some_iff.mp hterm
      constructor
      · rintro rfl
        exact .term hfirst
      · intro h
        cases h with
        | term h => exact Option.some.inj (hterm.symm.trans (exactTerm?_eq_some_iff.mpr h))
        | short hnone => exact (hnone term hfirst).elim
  | none =>
      have hnone := exactTerm?_eq_none_iff.mp hterm
      rw [Option.getD_none, compactVocab_eq_iff]
      constructor
      · exact .short hnone
      · intro h
        cases h with
        | term h => exact (hnone _ h).elim
        | short _ h => exact h

/-- The ways in which the name of a property comes back. -/
inductive NameReturns (ctx : Context) (iri : String) : Prop
  /-- A term stands for the IRI. -/
  | term {term : String} (h : ctx.FirstTerm iri term)
  /-- The short form is a term for something read backwards, which has the IRI as well. -/
  | backward {name : String} (hnone : ∀ term, ¬ ctx.FirstTerm iri term)
      (hshort : ctx.ShortName iri name) (hword : Iri.isKeyword name = false)
      (hterm : ctx.iriOf? name = some iri)
  /-- The compact IRI is no term, and its prefix can be read. -/
  | compact {name stem rest : String} (hnone : ∀ term, ¬ ctx.FirstTerm iri term)
      (h : ctx.LongestNamespace iri name stem rest)
      (hterm : ctx.iriOf? (name ++ ":" ++ rest) = none) (hname : Namespaces.Readable name)
  /-- What is behind the vocabulary is a mere word: neither a keyword nor a term, and no IRI. -/
  | word {vocab rest : String} (hnone : ∀ term, ¬ ctx.FirstTerm iri term)
      (hdivides : ∀ stem rest, ¬ ctx.Divides iri stem rest) (hvocab : ctx.vocab = some vocab)
      (happend : vocab ++ rest = iri) (hrest : rest ≠ "") (hword : Iri.isKeyword rest = false)
      (hterm : ctx.iriOf? rest = none) (hparts : Iri.compactParts? rest = none)
      (habsolute : Iri.isAbsolute rest = false)
  /-- No namespace shortens the IRI, and a term in front of what is written happens to make it
  up again. -/
  | joined {name first rest stem : String} (hnone : ∀ term, ¬ ctx.FirstTerm iri term)
      (hdivides : ∀ stem rest, ¬ ctx.Divides iri stem rest) (hshort : ctx.ShortName iri name)
      (hword : Iri.isKeyword name = false) (hterm : ctx.iriOf? name = none)
      (hparts : Iri.compactParts? name = some (first, rest))
      (hstem : ctx.iriOf? first = some stem) (happend : stem ++ rest = iri)
  /-- Nothing shortens the IRI, and it is read as it stands: it is a keyword, or it is no term,
  has no term for a prefix, and is absolute or has no vocabulary to be put behind. -/
  | full (hnone : ∀ term, ¬ ctx.FirstTerm iri term) (hshort : ctx.ShortName iri iri)
      (hself : Iri.isKeyword iri = true ∨ ctx.iriOf? iri = none ∧
        (∀ parts ∈ Iri.compactParts? iri, ctx.iriOf? parts.1 = none) ∧
        (Iri.compactParts? iri = none →
          Iri.isAbsolute iri = true ∨ ctx.vocab.getD "" = ""))

/-- A compact IRI is read as a term, or under a prefix that can be read, or it keeps a colon
in front of what is behind the prefix. -/
theorem Reads.compact_cases {rest : String} (h : ctx.Reads (name ++ ":" ++ rest) iri) :
    (Iri.isKeyword (name ++ ":" ++ rest) = false ∧ ctx.iriOf? (name ++ ":" ++ rest) = some iri) ∨
      (ctx.iriOf? (name ++ ":" ++ rest) = none ∧ Namespaces.Readable name) ∨
      ∃ front, iri = front ++ ":" ++ rest := by
  generalize hkey : name ++ ":" ++ rest = key at h
  cases h with
  | keyword | foreign | absolute => exact .inr (.inr ⟨name, hkey.symm⟩)
  | term hword hterm => exact .inl ⟨hword, hterm⟩
  | @compact first more stem _ hterm hparts _ =>
      -- The first colon is that behind the name, or within it.
      obtain ⟨happend, hreadable, -⟩ := Iri.compactParts?_eq_some_iff.mp hparts
      rcases Iri.append_colon_eq (happend.trans hkey.symm) hreadable.colon with
        ⟨rfl, -⟩ | ⟨inner, -, rfl⟩
      · exact .inr (.inl ⟨hterm, hreadable⟩)
      · exact .inr (.inr ⟨stem ++ inner, by simp [String.append_assoc]⟩)
  | word =>
      exact .inr (.inr ⟨ctx.vocab.getD "" ++ name, by rw [← hkey]; simp [String.append_assoc]⟩)

/-- No namespace ends in a colon. -/
theorem LongestNamespace.no_colon {stem rest : String}
    (h : ctx.LongestNamespace iri name stem rest) (front : String) :
    iri ≠ front ++ ":" ++ rest := by
  intro hfront
  have hstem : stem = front ++ ":" :=
    (String.append_left_inj rest).mp (h.divides.splits.append.trans hfront)
  have hnamespace := h.divides.isNamespace
  rw [hstem, Iri.isNamespace] at hnamespace
  simp at hnamespace

/-- A compact IRI comes back as a term or under a prefix that can be read. -/
theorem LongestNamespace.returns {stem rest : String}
    (h : ctx.LongestNamespace iri name stem rest) (hnone : ∀ term, ¬ ctx.FirstTerm iri term)
    (hreads : ctx.Reads (name ++ ":" ++ rest) iri) : ctx.NameReturns iri := by
  rcases hreads.compact_cases with ⟨hword, hterm⟩ | ⟨hterm, hname⟩ | ⟨front, hfront⟩
  · exact .backward hnone (.compact (fun _ => hnone) h) hword hterm
  · exact .compact hnone h hterm hname
  · exact (h.no_colon front hfront).elim

/-- A name without a namespace comes back as it is read. -/
theorem ShortName.returns (hshort : ctx.ShortName iri name)
    (hnone : ∀ term, ¬ ctx.FirstTerm iri term) (hdivides : ∀ stem rest, ¬ ctx.Divides iri stem rest)
    (hreads : ctx.Reads name iri) : ctx.NameReturns iri := by
  generalize hiri : iri = i at hreads
  cases hreads with
  | keyword hword =>
      subst hiri
      exact .full hnone hshort (.inl hword)
  | term hword hterm =>
      subst hiri
      exact .backward hnone hshort hword hterm
  | compact hword hterm hparts hstem =>
      rw [← hiri]
      exact .joined hnone hdivides hshort hword hterm hparts hstem hiri.symm
  | foreign hword hterm hparts hstem =>
      subst hiri
      refine .full hnone hshort (.inr ⟨hterm, fun parts hmem => ?_, fun hnil => ?_⟩)
      · rw [hparts] at hmem
        cases hmem
        exact hstem
      · rw [hparts] at hnil
        cases hnil
  | absolute hword hterm hparts habsolute =>
      subst hiri
      exact .full hnone hshort (.inr ⟨hterm, by simp [hparts], fun _ => .inl habsolute⟩)
  | word hword hterm hparts habsolute =>
      rw [← hiri]
      cases hshort with
      | term _ h => exact (hnone _ h).elim
      | compact _ h => exact (hdivides _ _ h.divides).elim
      | word _ _ hvocab happend hrest =>
          exact .word hnone hdivides hvocab happend hrest hword hterm hparts habsolute
      | full _ _ hvocab =>
          have hempty : ctx.vocab.getD "" = "" := String.append_eq_right_iff.mp hiri.symm
          exact .full hnone (.full (fun _ => hnone) hdivides hvocab)
            (.inr ⟨hterm, by simp [hparts], fun _ => .inr hempty⟩)

/-- Nothing that is read as it stands is changed. -/
theorem reads_self (hself : Iri.isKeyword iri = true ∨ ctx.iriOf? iri = none ∧
      (∀ parts ∈ Iri.compactParts? iri, ctx.iriOf? parts.1 = none) ∧
      (Iri.compactParts? iri = none → Iri.isAbsolute iri = true ∨ ctx.vocab.getD "" = "")) :
    ctx.Reads iri iri := by
  cases hword : Iri.isKeyword iri with
  | true => exact .keyword hword
  | false =>
      obtain ⟨hterm, hforeign, hfull⟩ := hself.resolve_left (by simp [hword])
      cases hparts : Iri.compactParts? iri with
      | some parts => exact .foreign hword hterm hparts (hforeign parts hparts)
      | none =>
          cases habsolute : Iri.isAbsolute iri with
          | true => exact .absolute hword hterm hparts habsolute
          | false =>
              have hempty := (hfull hparts).resolve_left (by simp [habsolute])
              have hreads := Reads.word hword hterm hparts habsolute
              rwa [hempty, String.empty_append] at hreads

/-- In each of the ways the name of a property is read as its IRI. -/
theorem NameReturns.exists_name (hwords : ctx.Words) (hdistinct : ctx.Distinct)
    (h : ctx.NameReturns iri) : ∃ name, ctx.PropertyName iri name ∧ ctx.Reads name iri := by
  cases h with
  | term h => exact ⟨_, .term h, .term (h.isKeyword hwords) (h.iriOf? hdistinct)⟩
  | backward hnone hshort hword hterm => exact ⟨_, .short hnone hshort, .term hword hterm⟩
  | compact hnone h hterm hname =>
      have hparts := Iri.compactParts?_eq_some_iff.mpr ⟨rfl, hname,
        Iri.startsAuthority_eq_false_iff.mpr h.divides.splits.noAuthority⟩
      have hword := Iri.isKeyword_of_parts hparts ▸ h.first.isKeyword hwords
      exact ⟨_, .short hnone (.compact (fun _ => hnone) h), h.divides.splits.append ▸
        .compact hword hterm hparts (h.first.iriOf? hdistinct)⟩
  | @word vocab rest hnone hdivides hvocab happend hrest hword hterm hparts habsolute =>
      have hreads := Reads.word hword hterm hparts habsolute
      rw [hvocab, Option.getD_some, happend] at hreads
      exact ⟨rest, .short hnone (.word (fun _ => hnone) hdivides hvocab happend hrest), hreads⟩
  | joined hnone hdivides hshort hword hterm hparts hstem happend =>
      exact ⟨_, .short hnone hshort, happend ▸ .compact hword hterm hparts hstem⟩
  | full hnone hshort hself => exact ⟨iri, .short hnone hshort, reads_self hself⟩

/-- **The name of a property comes back** in these ways only. -/
theorem expand_propertyName_iff (hwords : ctx.Words) (hdistinct : ctx.Distinct)
    (iri : String) : ctx.expand true (ctx.propertyName iri) = iri ↔ ctx.NameReturns iri := by
  constructor
  · intro hback
    have hname := propertyName_eq_iff.mp (rfl : ctx.propertyName iri = _)
    have hreads := expand_eq_iff.mp hback
    generalize ctx.propertyName iri = name at hname hreads
    cases hname with
    | term h => exact .term h
    | short hnone hshort =>
        rcases ctx.exists_longest iri with hdivides | ⟨first, stem, rest, h⟩
        · exact hshort.returns hnone hdivides hreads
        · obtain rfl : name = first ++ ":" ++ rest :=
            (compactVocab_eq_iff.mpr hshort).symm.trans
              (compactVocab_eq_iff.mpr (.compact (fun _ => hnone) h))
          exact h.returns hnone hreads
  · intro h
    obtain ⟨name, hname, hreads⟩ := h.exists_name hwords hdistinct
    rw [propertyName_eq_iff.mpr hname]
    exact hreads.expand

end Context

end ObjectGraph
