import ObjectGraph.Proofs.Namespaces

/-!
# The longest stem

Among the stems of a namespace map those can be split off an IRI that are in front of it
and leave a local part: something that is not empty and does not start with `//`
(`Namespaces.Splits`).  An IRI is split at the longest of them, and among the prefixes of
one stem by the first (`Namespaces.Longest`, `Namespaces.split?_eq_some_iff`); a longer
stem that leaves no local part does not count.  What is split that way is read back, as
long as no prefix name hides a colon or a slash, and what cannot be split stays as it is
(`Namespaces.split?_longest`).
-/

namespace ObjectGraph

namespace Iri

/-- The first of the shortest candidates: those in front of it are longer, those behind it
are no shorter. -/
def IsFirstShortest (candidates : List (String × String)) (c : String × String) : Prop :=
  ∃ before behind, candidates = before ++ c :: behind ∧
    (∀ d ∈ before, c.2.length < d.2.length) ∧ ∀ d ∈ behind, c.2.length ≤ d.2.length

/-- One candidate more is taken if it is shorter than the best so far. -/
theorem IsFirstShortest.concat {candidates : List (String × String)} {c : String × String}
    (h : IsFirstShortest candidates c) (d : String × String) :
    ∃ b, shorter (some c) d = some b ∧ IsFirstShortest (candidates ++ [d]) b := by
  obtain ⟨before, behind, rfl, hbefore, hbehind⟩ := h
  by_cases hlt : d.2.length < c.2.length
  · refine ⟨d, by simp [shorter, hlt], before ++ c :: behind, [], rfl, ?_, by simp⟩
    intro e he
    rcases List.mem_append.mp he with he | he
    · exact Nat.lt_trans hlt (hbefore e he)
    · rcases List.mem_cons.mp he with rfl | he
      · exact hlt
      · exact Nat.lt_of_lt_of_le hlt (hbehind e he)
  · refine ⟨c, by simp [shorter, hlt], before, behind ++ [d], by simp, hbefore, ?_⟩
    intro e he
    rcases List.mem_append.mp he with he | he
    · exact hbehind e he
    · obtain rfl := List.mem_singleton.mp he
      exact Nat.not_lt.mp hlt

/-- There is one first among the shortest. -/
theorem IsFirstShortest.unique {candidates : List (String × String)} {b c : String × String}
    (hb : IsFirstShortest candidates b) (hc : IsFirstShortest candidates c) : b = c := by
  obtain ⟨before, behind, rfl, hbefore, hbehind⟩ := hb
  obtain ⟨before', behind', heq, hbefore', hbehind'⟩ := hc
  -- One of the two stands in front of the other unless they have the same place.
  rcases List.append_eq_append_iff.mp heq with ⟨more, hmore, hrest⟩ | ⟨more, hmore, hrest⟩
  · cases more with
    | nil => exact (List.cons.inj hrest).1
    | cons e more =>
        obtain ⟨rfl, rfl⟩ := List.cons.inj hrest
        have hlt := hbefore' b (by simp [hmore])
        have hle := hbehind c (by simp)
        omega
  · cases more with
    | nil => exact (List.cons.inj hrest).1.symm
    | cons e more =>
        obtain ⟨rfl, rfl⟩ := List.cons.inj hrest
        have hlt := hbefore c (by simp [hmore])
        have hle := hbehind' b (by simp)
        omega

/-- The search keeps the first of the shortest candidates that it has met. -/
theorem foldl_shorter {met : List (String × String)} {c : String × String}
    (h : IsFirstShortest met c) (rest : List (String × String)) :
    ∃ b, rest.foldl shorter (some c) = some b ∧ IsFirstShortest (met ++ rest) b := by
  induction rest generalizing met c with
  | nil => exact ⟨c, rfl, by rwa [List.append_nil]⟩
  | cons d rest ih =>
      obtain ⟨b, hstep, hb⟩ := h.concat d
      obtain ⟨found, hfold, hfound⟩ := ih hb
      refine ⟨found, ?_, by rwa [List.append_cons]⟩
      rw [List.foldl_cons, hstep, hfold]

/-- **The shortest candidate** that is taken is the first of the shortest. -/
theorem shortest?_eq_some_iff {candidates : List (String × String)} {c : String × String} :
    shortest? candidates = some c ↔ IsFirstShortest candidates c := by
  cases candidates with
  | nil =>
      constructor
      · intro h
        cases h
      · rintro ⟨before, behind, heq, -⟩
        simp at heq
  | cons d rest =>
      have hstart : IsFirstShortest [d] d := ⟨[], [], rfl, by simp, by simp⟩
      obtain ⟨b, hfold, hb⟩ := foldl_shorter hstart rest
      have hbest : shortest? (d :: rest) = some b := hfold
      rw [hbest]
      constructor
      · intro h
        exact Option.some.inj h ▸ hb
      · intro h
        rw [hb.unique h]

/-- Of some candidates one is taken. -/
theorem shortest?_isSome_iff {candidates : List (String × String)} :
    (shortest? candidates).isSome ↔ candidates ≠ [] := by
  cases candidates with
  | nil => simp [shortest?]
  | cons d rest =>
      have hstart : IsFirstShortest [d] d := ⟨[], [], rfl, by simp, by simp⟩
      obtain ⟨b, hfold, -⟩ := foldl_shorter hstart rest
      have hbest : shortest? (d :: rest) = some b := hfold
      simp [hbest]

/-- Two slashes at the start. -/
theorem startsAuthority_eq_false_iff {cs : List Char} :
    startsAuthority cs = false ↔ ¬ ['/', '/'] <+: cs := by
  match cs with
  | [] => simp [startsAuthority]
  | [c] => simp [startsAuthority]
  | c :: d :: rest =>
      unfold startsAuthority
      split
      next heq =>
        obtain ⟨hc, heq⟩ := List.cons.inj heq
        obtain ⟨hd, -⟩ := List.cons.inj heq
        simp [hc, hd]
      next hne =>
        simp only [true_iff]
        intro hprefix
        obtain ⟨hc, hprefix⟩ := List.cons_prefix_cons.mp hprefix
        obtain ⟨hd, -⟩ := List.cons_prefix_cons.mp hprefix
        exact hne rest (by rw [← hc, ← hd])

end Iri

namespace Namespaces

variable {ns : Namespaces} {iri name stem rest : String}

/-- A stem can be split off an IRI and leaves a local part. -/
structure Splits (iri stem rest : String) : Prop where
  nonempty : stem ≠ ""
  append : stem ++ rest = iri
  rest_nonempty : rest ≠ ""
  noAuthority : ¬ ['/', '/'] <+: rest.toList

/-- The prefix with the longest stem that can be split off an IRI, and the first with
this stem. -/
structure Longest (ns : Namespaces) (iri name stem rest : String) : Prop where
  mem : (name, stem) ∈ ns.entries
  splits : Splits iri stem rest
  longest : ∀ e ∈ ns.entries, ∀ other, Splits iri e.2 other → e.2.length ≤ stem.length
  first : ∀ e ∈ ns.entries, e.2 = stem → name ≤ e.1

/-- What is behind a stem is the local part that it leaves. -/
theorem localPart?_eq_some_iff (hstem : stem ≠ "") :
    Iri.localPart? stem iri = some rest ↔ Splits iri stem rest := by
  rw [Iri.localPart?_eq_some, Iri.startsAuthority_eq_false_iff]
  constructor
  · rintro ⟨happend, hrest, hauthority⟩
    exact ⟨hstem, happend, hrest, hauthority⟩
  · exact fun h => ⟨h.append, h.rest_nonempty, h.noAuthority⟩

/-- An entry is a candidate if its stem can be split off the IRI. -/
theorem candidate?_eq_some_iff {e c : String × String} :
    candidate? iri e = some c ↔ e.1 = c.1 ∧ Splits iri e.2 c.2 := by
  unfold candidate?
  split
  next hempty =>
    simp only [reduceCtorEq, false_iff, not_and]
    intro _ h
    exact h.nonempty (String.isEmpty_iff.mp hempty)
  next hstem =>
    have hne : e.2 ≠ "" := fun h => hstem (String.isEmpty_iff.mpr h)
    constructor
    · intro h
      obtain ⟨rest, hlocal, rfl⟩ := Option.map_eq_some_iff.mp h
      exact ⟨rfl, (localPart?_eq_some_iff hne).mp hlocal⟩
    · rintro ⟨hname, h⟩
      exact Option.map_eq_some_iff.mpr
        ⟨c.2, (localPart?_eq_some_iff hne).mpr h, by rw [hname]⟩

/-- The compact forms of an IRI come from the stems that can be split off it. -/
theorem mem_candidates_iff {c : String × String} :
    c ∈ ns.entries.filterMap (candidate? iri) ↔
      ∃ stem, (c.1, stem) ∈ ns.entries ∧ Splits iri stem c.2 := by
  rw [List.mem_filterMap]
  constructor
  · rintro ⟨e, he, hc⟩
    obtain ⟨hname, hsplits⟩ := candidate?_eq_some_iff.mp hc
    exact ⟨e.2, hname ▸ he, hsplits⟩
  · rintro ⟨stem, he, hsplits⟩
    exact ⟨(c.1, stem), he, candidate?_eq_some_iff.mpr ⟨rfl, hsplits⟩⟩

/-- The compact forms come in the order of their prefixes. -/
theorem pairwise_candidates (ns : Namespaces) (iri : String) :
    (ns.entries.filterMap (candidate? iri)).Pairwise fun c d => c.1 < d.1 := by
  refine ns.sorted.filterMap _ ?_
  intro e e' hlt c hc d hd
  rw [← (candidate?_eq_some_iff.mp hc).1, ← (candidate?_eq_some_iff.mp hd).1]
  exact hlt

/-- Of two stems in front of an IRI the longer one leaves less. -/
theorem Splits.length_le_iff {stem' rest' : String} (h : Splits iri stem rest)
    (h' : Splits iri stem' rest') : stem'.length ≤ stem.length ↔ rest.length ≤ rest'.length := by
  have hsum : stem.length + rest.length = stem'.length + rest'.length := by
    rw [← String.length_append, ← String.length_append, h.append, h'.append]
  omega

/-- Stems of one length in front of an IRI are the same. -/
theorem Splits.eq_of_length {stem' rest' : String} (h : Splits iri stem rest)
    (h' : Splits iri stem' rest') (hlength : stem'.length = stem.length) :
    stem' = stem ∧ rest' = rest := by
  have hlists : stem'.toList ++ rest'.toList = stem.toList ++ rest.toList := by
    rw [← String.toList_append, ← String.toList_append, h.append, h'.append]
  obtain ⟨hstem, hrest⟩ :=
    List.append_inj hlists (by simpa only [String.length_toList] using hlength)
  exact ⟨String.toList_inj.mp hstem, String.toList_inj.mp hrest⟩

/-- **An IRI is split at the longest stem**, and by the first prefix with that stem. -/
theorem split?_eq_some_iff :
    ns.split? iri = some (name, rest) ↔ ∃ stem, Longest ns iri name stem rest := by
  have hsorted := pairwise_candidates ns iri
  unfold split?
  rw [Iri.shortest?_eq_some_iff]
  constructor
  · rintro ⟨before, behind, hcandidates, hbefore, hbehind⟩
    obtain ⟨stem, hmem, hsplits⟩ : ∃ stem, (name, stem) ∈ ns.entries ∧ Splits iri stem rest :=
      mem_candidates_iff (c := (name, rest)).mp (by simp [hcandidates])
    rw [hcandidates, List.pairwise_append, List.pairwise_cons] at hsorted
    obtain ⟨-, ⟨hafter, -⟩, -⟩ := hsorted
    -- Every other stem is that of a longer, a later or the same candidate.
    have hplace : ∀ e ∈ ns.entries, ∀ other, Splits iri e.2 other →
        rest.length < other.length ∨
          rest.length ≤ other.length ∧ name ≤ e.1 := by
      intro e he other hother
      have hc : (e.1, other) ∈ before ++ (name, rest) :: behind :=
        hcandidates ▸ mem_candidates_iff.mpr ⟨e.2, he, hother⟩
      rcases List.mem_append.mp hc with hc | hc
      · exact .inl (hbefore _ hc)
      · rcases List.mem_cons.mp hc with heq | hc
        · obtain ⟨rfl, rfl⟩ := Prod.mk.inj heq
          exact .inr ⟨Nat.le_refl _, String.le_refl _⟩
        · exact .inr ⟨hbehind _ hc, String.not_lt.mp (String.lt_asymm (hafter (e.1, other) hc))⟩
    refine ⟨stem, hmem, hsplits, ?_, ?_⟩
    · intro e he other hother
      rw [hsplits.length_le_iff hother]
      rcases hplace e he other hother with hlt | ⟨hle, -⟩
      · exact Nat.le_of_lt hlt
      · exact hle
    · intro e he hstem
      rcases hplace e he rest (hstem ▸ hsplits) with hlt | ⟨-, hname⟩
      · exact absurd hlt (Nat.lt_irrefl _)
      · exact hname
  · rintro ⟨stem, h⟩
    have hc : (name, rest) ∈ ns.entries.filterMap (candidate? iri) :=
      mem_candidates_iff.mpr ⟨stem, h.mem, h.splits⟩
    obtain ⟨before, behind, hcandidates⟩ := List.append_of_mem hc
    rw [hcandidates, List.pairwise_append] at hsorted
    obtain ⟨-, -, hcross⟩ := hsorted
    have hshortest : ∀ d ∈ ns.entries.filterMap (candidate? iri), rest.length ≤ d.2.length := by
      intro d hd
      obtain ⟨stem', hmem', hsplits'⟩ := mem_candidates_iff.mp hd
      exact (h.splits.length_le_iff hsplits').mp (h.longest _ hmem' _ hsplits')
    refine ⟨before, behind, hcandidates, ?_, ?_⟩
    · intro d hd
      have hd' : d ∈ ns.entries.filterMap (candidate? iri) := by simp [hcandidates, hd]
      refine Nat.lt_of_le_of_ne (hshortest d hd') ?_
      intro hlength
      -- One as short would have the same stem, and a name in front of the first.
      obtain ⟨stem', hmem', hsplits'⟩ := mem_candidates_iff.mp hd'
      have hle := (hsplits'.length_le_iff h.splits).mpr (Nat.le_of_eq hlength.symm)
      have hge := h.longest _ hmem' _ hsplits'
      obtain ⟨hstem, -⟩ := h.splits.eq_of_length hsplits' (Nat.le_antisymm hge hle)
      have hlt : d.1 < name := hcross d hd (name, rest) List.mem_cons_self
      exact String.not_lt.mpr (h.first _ hmem' hstem) hlt
    · intro d hd
      exact hshortest d (by simp [hcandidates, hd])

/-- An IRI is split if some stem can be split off it. -/
theorem split?_isSome_iff :
    (ns.split? iri).isSome ↔ ∃ e ∈ ns.entries, ∃ rest, Splits iri e.2 rest := by
  unfold split?
  rw [Iri.shortest?_isSome_iff]
  constructor
  · intro h
    obtain ⟨c, hc⟩ := List.exists_mem_of_ne_nil _ h
    obtain ⟨stem, hmem, hsplits⟩ := mem_candidates_iff.mp hc
    exact ⟨_, hmem, _, hsplits⟩
  · rintro ⟨e, he, rest, hsplits⟩
    exact List.ne_nil_of_mem (mem_candidates_iff.mpr ⟨e.2, he, hsplits⟩ : (e.1, rest) ∈ _)

/-- **Abbreviation takes the longest stem and can be undone.** -/
theorem split?_longest (ns : Namespaces) (iri : String) :
    ((ns.split? iri).isSome ↔ ∃ e ∈ ns.entries, ∃ rest, Splits iri e.2 rest) ∧
      (∀ name rest, ns.split? iri = some (name, rest) ↔ ∃ stem, Longest ns iri name stem rest) ∧
      ((∀ e ∈ ns.entries, Readable e.1) → (ns.split? iri).isSome →
        ns.expand (ns.abbreviate iri) = iri) ∧
      (ns.split? iri = none → ns.abbreviate iri = iri) := by
  refine ⟨split?_isSome_iff, fun name rest => split?_eq_some_iff, ?_, ?_⟩
  · intro hnames hsplit
    obtain ⟨⟨name, rest⟩, hparts⟩ := Option.isSome_iff_exists.mp hsplit
    exact expand_abbreviate hnames hparts
  · intro hnone
    simp [abbreviate, hnone]

/-- The longest stem leaves nothing here, so that the shorter one counts. -/
theorem split?_longest_sub :
    let ns := exampleOrg.insert "sub" "http://example.org/sub/"
    let iri := "http://example.org/sub/"
    (∀ e ∈ ns.entries, Readable e.1) ∧ ns.split? iri = some ("ex", "sub/") ∧
      ns.expand (ns.abbreviate iri) = iri := by
  intro ns iri
  have hnames : ∀ e ∈ ns.entries, Readable e.1 := by
    intro e he
    have hcases : e.1 = "ex" ∨ e.1 = "sub" := by
      simp [ns, exampleOrg, insert, empty, insertEntry] at he
      grind
    rcases hcases with h | h <;> rw [h] <;> exact ⟨by decide, by decide, by decide⟩
  have hsplit : ns.split? iri = some ("ex", "sub/") := by decide +kernel
  exact ⟨hnames, hsplit, (split?_longest ns iri).2.2.1 hnames (by simp [hsplit])⟩

end Namespaces

end ObjectGraph
