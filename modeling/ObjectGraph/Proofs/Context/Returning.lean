import ObjectGraph.Proofs.Context.ShortNames
import ObjectGraph.Proofs.Context.Words

/-!
# Identities that return

An identity is written in its short form and later expanded again.  Only namespaces shorten
it, but every term expands: an IRI that nothing shortens is itself read as a compact form if
a term happens to be named like its scheme.  An IRI that is shortened comes back under the
prefix name, unless that name is empty or has a colon or a slash.  These are the only ways
in which an identity is lost (`Context.expand_compactId_iff`).
-/

namespace ObjectGraph

/-- The parts of a compact form are a name without colon and slash and what is behind the
first colon. -/
theorem Iri.compactParts?_eq_some_iff {s name rest : String} :
    compactParts? s = some (name, rest) ↔
      name ++ ":" ++ rest = s ∧ Namespaces.Readable name ∧
        startsAuthority rest.toList = false := by
  constructor
  · intro h
    unfold compactParts? at h
    split at h
    next => cases h
    next front behind hat =>
      split at h
      next => cases h
      next hkept =>
        obtain ⟨rfl, rfl⟩ := Prod.mk.inj (Option.some.inj h)
        simp only [Bool.or_eq_true, not_or, Bool.not_eq_true] at hkept
        obtain ⟨⟨hempty, hslash⟩, hauthority⟩ := hkept
        unfold atColon? at hat
        split at hat
        next => cases hat
        next c more hdrop =>
          obtain ⟨rfl, rfl⟩ := Prod.mk.inj (Option.some.inj hat)
          have hc : c = ':' := by
            have hhead := List.head?_dropWhile_not (· != ':') s.toList
            rw [hdrop] at hhead
            simpa using hhead
          refine ⟨?_, ⟨?_, ?_, ?_⟩, by rwa [String.toList_ofList]⟩
          · rw [← String.toList_inj]
            have hsplit := List.takeWhile_append_dropWhile (p := (· != ':')) (l := s.toList)
            rw [hdrop, hc] at hsplit
            simpa using hsplit
          · intro hnil
            rw [← String.toList_inj, String.toList_ofList] at hnil
            simp [hnil] at hempty
          · rw [String.toList_ofList]
            intro hmem
            exact absurd (List.all_eq_true.mp List.all_takeWhile _ hmem) (by simp)
          · rw [String.toList_ofList]
            simpa using hslash
  · rintro ⟨rfl, hname, hauthority⟩
    exact compactParts?_append hname.nonempty hname.colon hname.slash hauthority

/-- A name without a colon in front of one is all of another such name, or stands in front
of a colon within it. -/
theorem Iri.append_colon_eq {first more name rest : String}
    (h : first ++ ":" ++ more = name ++ ":" ++ rest) (hfirst : ':' ∉ first.toList) :
    (first = name ∧ more = rest) ∨
      ∃ inner, name = first ++ ":" ++ inner ∧ more = inner ++ ":" ++ rest := by
  have hlists : first.toList ++ ':' :: more.toList = name.toList ++ ':' :: rest.toList := by
    simpa using congrArg String.toList h
  rcases List.append_eq_append_iff.mp hlists with ⟨cs, hname, hmore⟩ | ⟨cs, hname, hmore⟩
  · cases cs with
    | nil =>
        rw [List.append_nil, String.toList_inj] at hname
        exact .inl ⟨hname.symm, String.toList_inj.mp (List.cons.inj hmore).2⟩
    | cons c cs =>
        obtain ⟨rfl, htail⟩ := List.cons.inj hmore
        refine .inr ⟨String.ofList cs, ?_, ?_⟩
        · rw [← String.toList_inj]
          simp [hname]
        · rw [← String.toList_inj]
          simpa using htail
  · cases cs with
    | nil =>
        rw [List.append_nil, String.toList_inj] at hname
        exact .inl ⟨hname, (String.toList_inj.mp (List.cons.inj hmore).2).symm⟩
    | cons c cs =>
        obtain ⟨rfl, -⟩ := List.cons.inj hmore
        exact (hfirst (by rw [hname]; simp)).elim

namespace Context

variable {ctx : Context} {iri name stem rest : String}

/-- As an identity a name is expanded under the term in front of its first colon. -/
theorem expand_identity (ctx : Context) (s : String) :
    ctx.expand false s =
      if Iri.isKeyword s then s
      else
        match Iri.compactParts? s with
        | some (first, rest) => ((ctx.iriOf? first).map (· ++ rest)).getD s
        | none => s := by
  unfold expand
  split
  next => rfl
  next =>
    cases hparts : Iri.compactParts? s with
    | none => simp
    | some parts => cases hstem : ctx.iriOf? parts.1 <;> simp [hstem]

/-- The first term for an IRI stands for it. -/
theorem FirstTerm.iriOf? (hdistinct : ctx.Distinct) (h : ctx.FirstTerm stem name) :
    ctx.iriOf? name = some stem := by
  obtain ⟨before, d, behind, hterms, hmaps, -⟩ := h
  have hd : ctx.get? name = some d := Assoc.get?_of_mem hdistinct (by simp [hterms])
  rw [Context.iriOf?, hd, Option.bind_some, hmaps.2]

/-- The first term of an IRI is no keyword. -/
theorem FirstTerm.isKeyword (hwords : ctx.Words) (h : ctx.FirstTerm stem name) :
    Iri.isKeyword name = false := by
  obtain ⟨before, d, behind, hterms, -⟩ := h
  exact hwords (name, d) (by simp [hterms])

/-- A readable prefix gives back what it stands for. -/
theorem expand_compact (hwords : ctx.Words) (hdistinct : ctx.Distinct)
    (h : ctx.FirstTerm stem name) (hname : Namespaces.Readable name)
    (hrest : Iri.startsAuthority rest.toList = false) :
    ctx.expand false (name ++ ":" ++ rest) = stem ++ rest := by
  have hparts := Iri.compactParts?_eq_some_iff.mpr ⟨rfl, hname, hrest⟩
  rw [expand_identity, Iri.isKeyword_of_parts hparts, h.isKeyword hwords, hparts]
  simp [h.iriOf? hdistinct]

/-- An unreadable name leaves a colon in front of the local part. -/
theorem expand_unreadable (ctx : Context) (hname : ¬ Namespaces.Readable name) (rest : String) :
    ∃ front, ctx.expand false (name ++ ":" ++ rest) = front ++ ":" ++ rest := by
  rw [expand_identity]
  split
  next => exact ⟨name, rfl⟩
  next =>
    split
    next first more hparts =>
      cases hfirst : ctx.iriOf? first with
      | none => exact ⟨name, rfl⟩
      | some stem =>
          -- The first colon is within the name, which is readable otherwise.
          obtain ⟨happend, hreadable, -⟩ := Iri.compactParts?_eq_some_iff.mp hparts
          rcases Iri.append_colon_eq happend hreadable.colon with ⟨rfl, -⟩ | ⟨inner, -, rfl⟩
          · exact (hname hreadable).elim
          · exact ⟨stem ++ inner, by simp [String.append_assoc]⟩
    next => exact ⟨name, rfl⟩

/-- When the short form of an IRI stands for it again: the prefix name that shortens it can
be read, and if none does, no term reads the IRI as a compact form of another one. -/
structure Returns (ctx : Context) (iri : String) : Prop where
  short : ∀ name stem rest, ctx.LongestNamespace iri name stem rest → Namespaces.Readable name
  full : (∀ stem rest, ¬ ctx.Divides iri stem rest) → Iri.isKeyword iri = false →
    ∀ name rest stem, Iri.compactParts? iri = some (name, rest) → ctx.iriOf? name = some stem →
      stem ++ rest = iri

/-- An IRI that nothing shortens is expanded as it stands. -/
theorem expand_eq_self_iff :
    ctx.expand false iri = iri ↔
      (Iri.isKeyword iri = false → ∀ name rest stem, Iri.compactParts? iri = some (name, rest) →
        ctx.iriOf? name = some stem → stem ++ rest = iri) := by
  rw [expand_identity]
  constructor
  · intro hback hword name rest stem hparts hstem
    simpa [hword, hparts, hstem] using hback
  · intro h
    split
    next => rfl
    next hword =>
      split
      next first rest hparts =>
        cases hstem : ctx.iriOf? first with
        | none => rfl
        | some stem => exact h (by simpa using hword) first rest stem hparts hstem
      next => rfl

/-- **An identity comes back** exactly if its short form says so. -/
theorem expand_compactId_iff (hwords : ctx.Words) (hdistinct : ctx.Distinct) (iri : String) :
    ctx.expand false (ctx.compactId iri) = iri ↔ ctx.Returns iri := by
  rcases ctx.exists_longest iri with hnone | ⟨name, stem, rest, h⟩
  · have hshort : ctx.compactId iri = iri := compactId_eq_iff.mpr (.full hnone)
    rw [hshort, expand_eq_self_iff]
    constructor
    · exact fun hfull => ⟨fun _ _ _ h => (hnone _ _ h.divides).elim, fun _ => hfull⟩
    · exact fun h => h.full hnone
  · have hshort : ctx.compactId iri = name ++ ":" ++ rest := compactId_eq_iff.mpr (.compact h)
    rw [hshort]
    constructor
    · intro hback
      refine ⟨fun name' stem' rest' h' => ?_, fun hnone => (hnone _ _ h.divides).elim⟩
      have hsame : name' ++ ":" ++ rest' = name ++ ":" ++ rest :=
        (compactId_eq_iff.mpr (.compact h')).symm.trans hshort
      by_contra hname
      -- The colon in front of the local part would have to end the namespace.
      obtain ⟨front, hfront⟩ := ctx.expand_unreadable hname rest'
      rw [← hsame, hfront, ← h'.divides.splits.append] at hback
      have hstem : stem' = front ++ ":" := ((String.append_left_inj rest').mp hback).symm
      have hnamespace := h'.divides.isNamespace
      rw [hstem, Iri.isNamespace] at hnamespace
      simp at hnamespace
    · intro hreturns
      rw [expand_compact hwords hdistinct h.first (hreturns.short _ _ _ h)
        (Iri.startsAuthority_eq_false_iff.mpr h.divides.splits.noAuthority),
        h.divides.splits.append]

end Context

end ObjectGraph
