import Mathlib.Data.List.Nodup
import ObjectGraph.Proofs.Context.ShortNames

/-!
# Prepared compaction

Before the IRIs of an answer are shortened, a context is prepared once (`Compactor`).  The
first term of every IRI is kept in a table without an order of its own, and the namespaces
of the table are sorted, those with more bytes in front and of two with as many the one with
the smaller term.  An IRI is then written behind the first namespace that leaves a local
part; one that leaves none is passed over.

A table is modelled by its entries in the order in which they happen to come.  Since of two
namespaces in front of one IRI the longer one has more bytes, that order makes no
difference: the short names are those of the context (`compactor_shortens`).
-/

namespace ObjectGraph

/-- Of two stems in front of an IRI the one with fewer bytes is no longer. -/
theorem Namespaces.Splits.length_le_of_bytes {iri stem rest other more : String}
    (h : Splits iri stem rest) (h' : Splits iri other more)
    (hbytes : other.utf8ByteSize ≤ stem.utf8ByteSize) : other.length ≤ stem.length := by
  have hlists : stem.toList ++ rest.toList = other.toList ++ more.toList := by
    rw [← String.toList_append, ← String.toList_append, h.append, h'.append]
  rcases List.append_eq_append_iff.mp hlists with ⟨cs, hother, -⟩ | ⟨cs, hstem, -⟩
  · -- What the other stem has behind this one has no bytes.
    have happend : other = stem ++ String.ofList cs := by
      rw [← String.toList_inj, String.toList_append, String.toList_ofList, hother]
    have hempty : String.ofList cs = "" := by
      rw [happend, String.utf8ByteSize_append] at hbytes
      exact String.utf8ByteSize_eq_zero_iff.mp (by omega)
    exact Nat.le_of_eq (by rw [happend, hempty, String.append_empty])
  · rw [← String.length_toList, ← String.length_toList, hstem, List.length_append]
    exact Nat.le_add_right _ _

/-- A context prepared for compaction: a term for every IRI, the namespaces with their
terms in the order in which they are tried, and the vocabulary. -/
structure Compactor where
  exact : Assoc String
  prefixes : List (String × String)
  vocab : Option String

namespace Compactor

/-- Adds a term for an IRI that has none. -/
def keepFirst (table : Assoc String) (e : String × String) : Assoc String :=
  if table.contains e.1 then table else table.insert e.1 e.2

/-- Whether a namespace may stand in front of another: it has more bytes, or as many and a
term that is no greater. -/
def before (a b : String × String) : Bool :=
  decide (b.1.utf8ByteSize < a.1.utf8ByteSize ∨
    a.1.utf8ByteSize = b.1.utf8ByteSize ∧ a.2 ≤ b.2)

/-- The compactor of a context whose table comes in some order. -/
def ofTable (ctx : Context) (table : Assoc String) : Compactor where
  exact := table
  prefixes := (table.filter fun e => Iri.isNamespace e.1).mergeSort before
  vocab := ctx.vocab

/-- The compact IRI behind the first namespace that leaves a local part. -/
def compactPrefixed? (c : Compactor) (iri : String) : Option String :=
  c.prefixes.findSome? fun e => (Iri.localPart? e.1 iri).map fun rest => e.2 ++ ":" ++ rest

/-- The short name of an IRI as an identity. -/
def compactId (c : Compactor) (iri : String) : String :=
  (c.compactPrefixed? iri).getD iri

/-- The short name of an IRI as a word of the vocabulary. -/
def compactVocab (c : Compactor) (iri : String) : String :=
  match if Iri.isNamespace iri then none else c.exact.get? iri with
  | some term => term
  | none =>
    match c.compactPrefixed? iri with
    | some name => name
    | none =>
      match c.vocab with
      | none => iri
      | some vocab =>
        match vocab.toList.isPrefixOf? iri.toList with
        | none | some [] => iri
        | some rest => String.ofList rest

/-! ## The table -/

/-- The first term of an IRI stays when another one is added. -/
theorem get?_keepFirst (table : Assoc String) (e : String × String) (iri : String) :
    (keepFirst table e).get? iri = (table.get? iri).or (Assoc.get? [e] iri) := by
  obtain ⟨key, term⟩ := e
  unfold keepFirst
  split
  next hthere =>
    by_cases hkey : key = iri
    · obtain ⟨value, hvalue⟩ := Option.isSome_iff_exists.mp hthere
      rw [← hkey, hvalue, Option.some_or]
    · simp [Assoc.get?, hkey]
  next hnew =>
    rw [Assoc.contains, Option.not_isSome_iff_eq_none] at hnew
    rw [Assoc.get?_insert]
    by_cases hkey : key = iri
    · simp [Assoc.get?, ← hkey, hnew]
    · simp [Assoc.get?, hkey]

/-- No IRI gets a second term. -/
theorem nodup_keepFirst {table : Assoc String} (h : (Assoc.keys table).Nodup)
    (e : String × String) : (Assoc.keys (keepFirst table e)).Nodup := by
  unfold keepFirst
  split
  next => exact h
  next => exact Assoc.nodup_keys_insert h e.1 e.2

/-- The table that a list of entries fills gives each key its first value. -/
theorem foldl_keepFirst (entries table : Assoc String) (h : (Assoc.keys table).Nodup) :
    (Assoc.keys (entries.foldl keepFirst table)).Nodup ∧
      ∀ iri, (entries.foldl keepFirst table).get? iri = (table.get? iri).or (entries.get? iri) := by
  induction entries generalizing table with
  | nil => exact ⟨h, fun iri => by simp [Assoc.get?]⟩
  | cons e rest ih =>
      obtain ⟨hnodup, hget⟩ := ih (keepFirst table e) (nodup_keepFirst h e)
      refine ⟨hnodup, fun iri => ?_⟩
      rw [List.foldl_cons, hget, get?_keepFirst, Option.or_assoc, ← Assoc.get?_append,
        List.singleton_append]

end Compactor

namespace Context

open Compactor

variable {ctx : Context} {table : Assoc String} {iri : String}

/-- The first term of every IRI that has one. -/
def firstTerms (ctx : Context) : Assoc String :=
  ctx.exactTerms.foldl keepFirst []

/-- The table of first terms has an entry for each IRI. -/
theorem nodup_firstTerms (ctx : Context) : (Assoc.keys ctx.firstTerms).Nodup :=
  (foldl_keepFirst ctx.exactTerms [] (by simp [Assoc.keys])).1

/-- The first term in the table is the one that is found without it. -/
theorem get?_firstTerms (ctx : Context) (iri : String) :
    ctx.firstTerms.get? iri = ctx.exactTerm? iri :=
  (foldl_keepFirst ctx.exactTerms [] (by simp [Assoc.keys])).2 iri

/-- In whatever order it comes, the table has the first terms of the IRIs. -/
theorem get?_table (htable : table.Perm ctx.firstTerms) (iri : String) :
    table.get? iri = ctx.exactTerm? iri := by
  rw [Assoc.get?_perm htable ctx.nodup_firstTerms, get?_firstTerms]

/-- The table lists the first terms, in whatever order. -/
theorem mem_table_iff (htable : table.Perm ctx.firstTerms) {e : String × String} :
    e ∈ table ↔ ctx.FirstTerm e.1 e.2 := by
  rw [htable.mem_iff, ← exactTerm?_eq_some_iff, ← get?_firstTerms]
  exact (Assoc.get?_eq_some_iff ctx.nodup_firstTerms).symm

/-- An IRI that some term is mapped to has a first term. -/
theorem exists_firstTerm (h : ∃ t ∈ ctx.terms, t.2.MapsTo iri) :
    ∃ term, ctx.FirstTerm iri term := by
  obtain ⟨t, ht, hmaps⟩ := h
  by_contra hnone
  rw [not_exists, ← exactTerm?_eq_none_iff] at hnone
  exact Assoc.get?_eq_none_iff.mp hnone
    (List.mem_map.mpr ⟨(iri, t.1), mem_exactTerms.mpr ⟨t, ht, rfl, hmaps⟩, rfl⟩)

/-! ## The namespaces in order -/

/-- The namespaces of the compactor are the first terms that are mapped to namespaces. -/
theorem mem_prefixes_iff (htable : table.Perm ctx.firstTerms) {e : String × String} :
    e ∈ (ofTable ctx table).prefixes ↔ Iri.isNamespace e.1 = true ∧ ctx.FirstTerm e.1 e.2 := by
  rw [ofTable, List.mem_mergeSort, List.mem_filter, mem_table_iff htable, and_comm]

/-- Namespaces with more bytes are tried first. -/
theorem pairwise_prefixes (ctx : Context) (table : Assoc String) :
    (ofTable ctx table).prefixes.Pairwise fun a b => b.1.utf8ByteSize ≤ a.1.utf8ByteSize := by
  have htrans : ∀ a b c, before a b = true → before b c = true → before a c = true := by
    intro a b c hab hbc
    rw [before, decide_eq_true_iff] at hab hbc ⊢
    rcases hab with hab | ⟨hab, hterm⟩
    · exact .inl (by omega)
    · rcases hbc with hbc | ⟨hbc, hterm'⟩
      · exact .inl (by omega)
      · exact .inr ⟨hab.trans hbc, String.le_trans hterm hterm'⟩
  have htotal : ∀ a b, (before a b || before b a) = true := by
    intro a b
    rw [Bool.or_eq_true, before, before, decide_eq_true_iff, decide_eq_true_iff]
    rcases Nat.lt_trichotomy a.1.utf8ByteSize b.1.utf8ByteSize with hlt | heq | hgt
    · exact .inr (.inl hlt)
    · exact (String.le_total a.2 b.2).imp (fun h => .inr ⟨heq, h⟩) fun h => .inr ⟨heq.symm, h⟩
    · exact .inl (.inl hgt)
  refine (List.pairwise_mergeSort htrans htotal _).imp fun {a b} h => ?_
  rw [before, decide_eq_true_iff] at h
  omega

/-- A namespace that divides an IRI is tried with the first term for it. -/
theorem Divides.exists_tried (htable : table.Perm ctx.firstTerms) {stem rest : String}
    (h : ctx.Divides iri stem rest) : ∃ term, (stem, term) ∈ (ofTable ctx table).prefixes := by
  obtain ⟨term, hterm⟩ := exists_firstTerm h.mapped
  exact ⟨term, (mem_prefixes_iff htable).mpr ⟨h.isNamespace, hterm⟩⟩

/-- What a namespace leaves of an IRI is its local part. -/
theorem Divides.localPart? {stem rest : String} (h : ctx.Divides iri stem rest) :
    Iri.localPart? stem iri = some rest :=
  (Namespaces.localPart?_eq_some_iff h.splits.nonempty).mpr h.splits

/-- **The first namespace that leaves a local part is the longest one.** -/
theorem compactPrefixed?_eq (htable : table.Perm ctx.firstTerms) (iri : String) :
    (ofTable ctx table).compactPrefixed? iri = ctx.compactForm? iri := by
  unfold compactPrefixed?
  cases hfound : (ofTable ctx table).prefixes.findSome? _ with
  | none =>
      refine (compactForm?_eq_none_iff.mpr fun stem rest hdivides => ?_).symm
      obtain ⟨term, hmem⟩ := hdivides.exists_tried htable
      have hmiss := List.findSome?_eq_none_iff.mp hfound _ hmem
      rw [hdivides.localPart?] at hmiss
      cases hmiss
  | some name =>
      obtain ⟨front, ⟨stem, term⟩, behind, hprefixes, hform, hskipped⟩ :=
        List.findSome?_eq_some_iff.mp hfound
      obtain ⟨rest, hrest, rfl⟩ := Option.map_eq_some_iff.mp hform
      obtain ⟨hnamespace, hfirst⟩ :=
        (mem_prefixes_iff (e := (stem, term)) htable).mp (by simp [hprefixes])
      obtain ⟨front', d, behind', hterms, hmaps, -⟩ := id hfirst
      have hdivides : ctx.Divides iri stem rest :=
        ⟨⟨(term, d), by simp [hterms], hmaps⟩, hnamespace,
          (Namespaces.localPart?_eq_some_iff (Iri.ne_empty_of_isNamespace hnamespace)).mp hrest⟩
      refine (compactForm?_eq_some ⟨hdivides, hfirst, fun other more hother => ?_⟩).symm
      -- What divides the IRI was not skipped, so it is tried here or later.
      obtain ⟨term', hmem⟩ := hother.exists_tried htable
      have hsorted := pairwise_prefixes ctx table
      rw [hprefixes, List.pairwise_append, List.pairwise_cons] at hsorted
      rw [hprefixes] at hmem
      rcases List.mem_append.mp hmem with hmem | hmem
      · have hmiss := hskipped _ hmem
        rw [hother.localPart?] at hmiss
        cases hmiss
      · rcases List.mem_cons.mp hmem with heq | hmem
        · exact Nat.le_of_eq (congrArg (·.1.length) heq)
        · exact hdivides.splits.length_le_of_bytes hother.splits
            (hsorted.2.1.1 (other, term') hmem)

/-- Identities are shortened as without the table, whatever its order. -/
theorem ofTable_compactId (htable : table.Perm ctx.firstTerms) (iri : String) :
    (ofTable ctx table).compactId iri = ctx.compactId iri := by
  rw [Compactor.compactId, compactPrefixed?_eq htable, Context.compactId]

/-- Words of the vocabulary are shortened as without the table, whatever its order. -/
theorem ofTable_compactVocab (htable : table.Perm ctx.firstTerms) (iri : String) :
    (ofTable ctx table).compactVocab iri = ctx.compactVocab iri := by
  unfold Compactor.compactVocab Context.compactVocab vocabName?
  rw [compactPrefixed?_eq htable]
  simp only [ofTable, get?_table htable]
  cases (if Iri.isNamespace iri then none else ctx.exactTerm? iri) with
  | some term => rfl
  | none =>
      cases ctx.compactForm? iri with
      | some name => rfl
      | none =>
          cases ctx.vocab with
          | none => rfl
          | some vocab =>
              dsimp only
              cases vocab.toList.isPrefixOf? iri.toList with
              | none => rfl
              | some rest => cases rest <;> rfl

/-- **Prepared compaction takes the most specific namespace**, in whatever order the table
of first terms comes. -/
theorem compactor_shortens (ctx : Context) {table : Assoc String}
    (htable : table.Perm ctx.firstTerms) (iri : String) :
    (∀ name, (ofTable ctx table).compactId iri = name ↔ ctx.ShortId iri name) ∧
      (∀ name, (ofTable ctx table).compactVocab iri = name ↔ ctx.ShortName iri name) ∧
      (ofTable ctx table).compactId iri = ctx.compactId iri ∧
      (ofTable ctx table).compactVocab iri = ctx.compactVocab iri := by
  refine ⟨fun name => ?_, fun name => ?_, ofTable_compactId htable iri,
    ofTable_compactVocab htable iri⟩
  · rw [ofTable_compactId htable]
    exact compactId_eq_iff
  · rw [ofTable_compactVocab htable]
    exact compactVocab_eq_iff

/-- Two terms for one namespace, one for a longer one and one for a property. -/
def overlapping : Context :=
  { empty with
    terms := [("ex", .ofIri "http://example.org/"), ("alias", .ofIri "http://example.org/"),
      ("exsub", .ofIri "http://example.org/sub/"), ("name", .ofIri "http://example.org/name")] }

/-- With the table the other way round, the longer namespace is tried first, and passed over
if it leaves nothing. -/
theorem compactor_shortens_overlapping :
    let table := overlapping.firstTerms.reverse
    table.Perm overlapping.firstTerms ∧
      (ofTable overlapping table).compactId "http://example.org/sub/x" = "exsub:x" ∧
      overlapping.ShortId "http://example.org/sub/" "ex:sub/" ∧
      overlapping.ShortName "http://example.org/name" "name" := by
  intro table
  have htable : table.Perm overlapping.firstTerms := List.reverse_perm _
  refine ⟨htable, ?_, ?_, ?_⟩
  · rw [(compactor_shortens overlapping htable "http://example.org/sub/x").2.2.1]
    decide +kernel
  · refine ((compactor_shortens overlapping htable _).1 _).mp ?_
    rw [ofTable_compactId htable]
    decide +kernel
  · refine ((compactor_shortens overlapping htable _).2.1 _).mp ?_
    rw [ofTable_compactVocab htable]
    decide +kernel

end Context

end ObjectGraph
