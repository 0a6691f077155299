import Mathlib.Data.List.Nodup
import ObjectGraph.Proofs.Context.Settled
import ObjectGraph.Proofs.Context.Words

/-!
# Contexts that are written and read again

Writing a context drops what a definition does not have, and a definition that only has an
IRI is written as that IRI.  Reading resolves every text again, under the object that is
read.  In a flat context (`Context.Flat`) this changes nothing: each text that is written is
a keyword or stands for itself under the object, as no term is named like its scheme
(`Spared.resolve`).  So each definition is read as it was (`FlatDefinition.define`), and the
context comes back as a whole, its terms in their order (`parse_toJson_flat`).
-/

namespace ObjectGraph

open Json (Value Object)

/-- The IRI of the datatype that a definition gives its values. -/
def Definition.datatype? (d : Definition) : Option String :=
  match d.coercion with
  | some (.datatype i) => some i
  | _ => none

/-- A member that is there if it has a value. -/
theorem Assoc.get?_optional {α β : Type} (o : Option β) (k : String) (f : β → α) (key : String) :
    Assoc.get? (o.toList.map fun b => (k, f b)) key = if k = key then o.map f else none := by
  cases o <;> simp [Assoc.get?]

namespace Context

/-- An absolute IRI whose scheme, where it can be read as a prefix, is no term. -/
structure Spared (ctx : Context) (i : String) : Prop where
  absolute : Iri.isAbsolute i = true
  scheme : ∀ parts ∈ Iri.compactParts? i, ctx.contains parts.1 = false

/-- A definition without a context of its own that maps its term to keywords or absolute IRIs
and types its values by an absolute IRI, if by a datatype. -/
structure FlatDefinition (ctx : Context) (d : Definition) : Prop where
  unscoped : d.scope.isNone = true
  mapped : d.iri.isSome = true ∨ d.reverse.isSome = true
  iris : ∀ i ∈ d.iris, Iri.isKeyword i = true ∨ ctx.Spared i
  datatype : ∀ i ∈ d.datatype?, ctx.Spared i

/-- A context of flat definitions, one for each of its terms. -/
structure Flat (ctx : Context) : Prop where
  words : ctx.Words
  distinct : ctx.Distinct
  definitions : ∀ e ∈ ctx.terms, ctx.FlatDefinition e.2

instance (ctx : Context) (i : String) : Decidable (ctx.Spared i) :=
  decidable_of_iff (Iri.isAbsolute i = true ∧
      ∀ parts ∈ Iri.compactParts? i, ctx.contains parts.1 = false)
    ⟨fun h => ⟨h.1, h.2⟩, fun h => ⟨h.1, h.2⟩⟩

instance (ctx : Context) (d : Definition) : Decidable (ctx.FlatDefinition d) :=
  decidable_of_iff (d.scope.isNone = true ∧ (d.iri.isSome = true ∨ d.reverse.isSome = true) ∧
      (∀ i ∈ d.iris, Iri.isKeyword i = true ∨ ctx.Spared i) ∧ ∀ i ∈ d.datatype?, ctx.Spared i)
    ⟨fun h => ⟨h.1, h.2.1, h.2.2.1, h.2.2.2⟩, fun h => ⟨h.1, h.2, h.3, h.4⟩⟩

instance (ctx : Context) : Decidable ctx.Flat :=
  decidable_of_iff ((∀ e ∈ ctx.terms, Iri.isKeyword e.1 = false) ∧
      (Assoc.keys ctx.terms).Nodup ∧ ∀ e ∈ ctx.terms, ctx.FlatDefinition e.2)
    ⟨fun h => ⟨h.1, h.2.1, h.2.2⟩, fun h => ⟨h.1, h.2, h.3⟩⟩

/-- The members that set vocabulary and base. -/
def keywordMembers (ctx : Context) : Object :=
  ctx.vocab.toList.map (fun v => ("@vocab", .str v)) ++
    ctx.base.toList.map fun b => ("@base", .str b)

/-- The members that a context is written as. -/
def writtenAs (ctx : Context) : Object :=
  ctx.keywordMembers ++ ctx.terms.map fun e => (e.1, e.2.toJson)

variable {ctx : Context} {d : Definition} {i : String}

/-! ## Members -/

/-- The keyword members are those for vocabulary and base. -/
theorem keywordMembers_cases {m : String × Value} (h : m ∈ ctx.keywordMembers) :
    m.1 = "@vocab" ∨ m.1 = "@base" := by
  unfold keywordMembers at h
  rcases List.mem_append.mp h with h | h
  · obtain ⟨v, -, rfl⟩ := List.mem_map.mp h
    exact .inl rfl
  · obtain ⟨b, -, rfl⟩ := List.mem_map.mp h
    exact .inr rfl

/-- The keys of the keyword members are keywords. -/
theorem isKeyword_keywordMembers {m : String × Value} (h : m ∈ ctx.keywordMembers) :
    Iri.isKeyword m.1 = true := by
  rcases keywordMembers_cases h with h | h <;> rw [h] <;> decide

/-- A context is written as its keyword members and then its terms. -/
theorem keys_writtenAs (ctx : Context) :
    ctx.writtenAs.keys = ctx.keywordMembers.keys ++ Assoc.keys ctx.terms := by
  simp [writtenAs, Assoc.keys]

/-- No key is written twice. -/
theorem nodup_writtenAs (hwords : ctx.Words) (hdistinct : ctx.Distinct) :
    ctx.writtenAs.keys.Nodup := by
  rw [keys_writtenAs]
  refine List.nodup_append.mpr ⟨?_, hdistinct, ?_⟩
  · unfold keywordMembers
    cases ctx.vocab <;> cases ctx.base <;> simp [Assoc.keys]
  · rintro _ hkeyword _ hterm rfl
    obtain ⟨m, hm, rfl⟩ := List.mem_map.mp hkeyword
    obtain ⟨e, he, heq⟩ := List.mem_map.mp hterm
    have hword := hwords e he
    rw [heq, isKeyword_keywordMembers hm] at hword
    cases hword

/-- Terms are written one after the other. -/
theorem termMembers_eq (terms : List (String × Definition)) (members : Object) :
    termMembers terms members =
      (terms.map fun e => (e.1, e.2.toJson)).foldl (fun m e => Assoc.insert m e.1 e.2)
        members := by
  induction terms generalizing members with
  | nil => unfold termMembers; rfl
  | cons e rest ih => unfold termMembers; exact ih _

/-- A context that is not empty is written as an object of its members. -/
theorem toJson_eq (hwords : ctx.Words) (hdistinct : ctx.Distinct) (hne : ctx ≠ .empty) :
    ctx.toJson = .obj ctx.writtenAs := by
  have hkeywords : Assoc.ofList ctx.keywordMembers = ctx.keywordMembers := by
    unfold keywordMembers
    cases ctx.vocab <;> cases ctx.base <;> simp [Assoc.ofList, Assoc.insert]
  have hmembers : termMembers ctx.terms (Assoc.ofList ctx.keywordMembers) = ctx.writtenAs := by
    rw [termMembers_eq, hkeywords, Assoc.foldl_insert]
    · rfl
    · simpa [writtenAs, Assoc.keys] using nodup_writtenAs hwords hdistinct
  rw [← hmembers]
  unfold Context.toJson
  split
  next => exact (hne rfl).elim
  next => rfl

/-! ## Texts that stand for themselves -/

/-- Under a word, the members have what the context has. -/
theorem get?_writtenAs {term : String} (hterm : Iri.isKeyword term = false) :
    ctx.writtenAs.get? term = (ctx.get? term).map Definition.toJson := by
  have hkeywords : ctx.keywordMembers.get? term = none := by
    rw [Assoc.get?_eq_none_iff]
    intro hmem
    obtain ⟨m, hm, rfl⟩ := List.mem_map.mp hmem
    rw [isKeyword_keywordMembers hm] at hterm
    cases hterm
  rw [writtenAs, Assoc.get?_append, hkeywords, Option.none_or]
  unfold get?
  induction ctx.terms with
  | nil => rfl
  | cons e rest ih =>
      by_cases h : e.1 = term
      · simp [Assoc.get?, h]
      · simp [Assoc.get?, h, ih]

/-- A spared IRI stands for itself under what is written. -/
theorem Spared.own (h : ctx.Spared i) : Own ctx.writtenAs .empty i where
  absolute := h.absolute
  foreign := by
    intro name rest hparts
    have hname : Iri.isKeyword name = false :=
      Iri.isKeyword_of_parts hparts ▸ Iri.isKeyword_of_isAbsolute h.absolute
    have hnone : ctx.get? name = none := by
      simpa [contains, Assoc.contains, get?] using h.scheme _ hparts
    refine ⟨?_, rfl⟩
    rw [localTarget?, get?_writtenAs hname, hnone]
    rfl

/-- A spared IRI stands for itself under what is written. -/
theorem Spared.resolve (h : ctx.Spared i) (vocab : Option String) :
    resolve ctx.writtenAs .empty vocab i = .ok i :=
  follow_own h.own (by simp) _

/-- A keyword stands for itself. -/
theorem resolve_keyword (members : Object) (base : Context) (vocab : Option String)
    (h : Iri.isKeyword i = true) : resolve members base vocab i = .ok i := by
  rw [resolve, follow, if_pos h]

/-- The IRIs of a flat definition stand for themselves. -/
theorem FlatDefinition.resolve (h : ctx.FlatDefinition d) (hi : i ∈ d.iris)
    (vocab : Option String) : Context.resolve ctx.writtenAs .empty vocab i = .ok i := by
  rcases h.iris i hi with hkeyword | hspared
  · exact resolve_keyword _ _ vocab hkeyword
  · exact hspared.resolve vocab

/-! ## Definitions -/

/-- A container is read from its name. -/
theorem containerOf?_name (c : Option Container) :
    containerOf? (c.map fun c => .str c.name) = c := by
  rcases c with _ | c
  · rfl
  · cases c <;> rfl

/-- A name that is no keyword of coercions is that of a datatype. -/
theorem coercionOf_text {resolve : String → Except ContextError String} {w : String}
    (hid : w ≠ "@id") (hvocab : w ≠ "@vocab") (hjson : w ≠ "@json") :
    coercionOf resolve (some (.str w)) =
      (resolve w).bind fun iri => .ok (some (.datatype iri)) := by
  unfold coercionOf
  split
  next heq => exact (hid (Value.str.inj (Option.some.inj heq))).elim
  next heq => exact (hvocab (Value.str.inj (Option.some.inj heq))).elim
  next heq => exact (hjson (Value.str.inj (Option.some.inj heq))).elim
  next heq => rw [Value.str.inj (Option.some.inj heq)]; rfl
  next hother => exact (hother w rfl).elim

/-- A coercion is read back from its name, a datatype if its IRI stands for itself. -/
theorem coercionOf_name {resolve : String → Except ContextError String} (c : Option Coercion)
    (h : ∀ i, c = some (.datatype i) → Iri.isKeyword i = false ∧ resolve i = .ok i) :
    coercionOf resolve (c.map fun c => .str c.name) = .ok c := by
  rcases c with _ | c
  · rfl
  · cases c with
    | id | vocab | json => rfl
    | datatype i =>
        obtain ⟨hword, hi⟩ := h i rfl
        have hname : ∀ w, Iri.isKeyword w = true → i ≠ w := by
          rintro w hw rfl
          rw [hw] at hword
          cases hword
        rw [Option.map_some, Coercion.name, coercionOf_text (hname "@id" (by decide))
          (hname "@vocab" (by decide)) (hname "@json" (by decide)), hi]
        rfl

/-- The members of a definition that is written as an object. -/
def entryMembers (d : Definition) : Object :=
  d.iri.toList.map (fun i => ("@id", .str i)) ++
    d.reverse.toList.map (fun i => ("@reverse", .str i)) ++
    d.coercion.toList.map (fun c => ("@type", .str c.name)) ++
    d.container.toList.map fun c => ("@container", .str c.name)

/-- What stands under the keys of a definition that is written as an object. -/
theorem get?_entryMembers (d : Definition) :
    (entryMembers d).get? "@id" = d.iri.map .str ∧
      (entryMembers d).get? "@reverse" = d.reverse.map .str ∧
      (entryMembers d).get? "@type" = d.coercion.map (fun c => .str c.name) ∧
      (entryMembers d).get? "@container" = d.container.map (fun c => .str c.name) ∧
      (entryMembers d).get? "@context" = none := by
  simp [entryMembers, Assoc.get?_append, Assoc.get?_optional]

/-- A flat definition is written as its IRI, if that is all it has, or as its members. -/
theorem FlatDefinition.toJson_cases (h : ctx.FlatDefinition d) :
    (∃ i, d = .ofIri i ∧ d.toJson = .str i) ∨ d.toJson = .obj (entryMembers d) := by
  obtain ⟨iri, coercion, reverse, container, scope⟩ := d
  obtain rfl : scope = none := Option.isNone_iff_eq_none.mp h.unscoped
  unfold Definition.toJson
  split
  next heq =>
    cases heq
    obtain ⟨i, rfl⟩ : ∃ i, iri = some i := by
      simpa [Option.isSome_iff_exists] using h.mapped
    exact .inl ⟨i, rfl, rfl⟩
  next heq =>
    cases heq
    exact .inr (by simp [entryMembers, scopeMember])

/-- A reverse IRI that stands for itself is read as it is written. -/
theorem reverseOf_map {resolve : String → Except ContextError String} {reverse : Option String}
    (h : ∀ i, reverse = some i → resolve i = .ok i) :
    reverseOf resolve (reverse.map .str) = .ok reverse := by
  cases reverse with
  | none => rfl
  | some i => simp [reverseOf, h i rfl, bind, Except.bind]

/-- An IRI that stands for itself is read as it is written. -/
theorem iriOf_map {resolve : String → Except ContextError String} {iri reverse : Option String}
    (hmapped : iri.isSome = true ∨ reverse.isSome = true)
    (h : ∀ i, iri = some i → resolve i = .ok i) (term : String) :
    iriOf resolve term reverse (iri.map .str) = .ok iri := by
  cases iri with
  | some i => simp [iriOf, h i rfl, bind, Except.bind]
  | none =>
      cases reverse with
      | some r => rfl
      | none => simp at hmapped

/-- **A flat definition is read as it was.** -/
theorem FlatDefinition.define (h : ctx.FlatDefinition d) (vocab : Option String)
    (term : String) :
    Context.define (Context.resolve ctx.writtenAs .empty vocab) term d.toJson = .ok d := by
  rcases h.toJson_cases with ⟨i, rfl, htext⟩ | hmembers
  · have hi := h.resolve (i := i) (by simp [Definition.iris, Definition.ofIri]) vocab
    rw [htext]
    simp [Context.define, hi, bind, Except.bind]
  · obtain ⟨hid, hreverse, htype, hcontainer, -⟩ := get?_entryMembers d
    have hback : reverseOf (Context.resolve ctx.writtenAs .empty vocab)
        (d.reverse.map .str) = .ok d.reverse :=
      reverseOf_map fun i hi => h.resolve (by simp [Definition.iris, hi]) vocab
    have hiri := iriOf_map h.mapped
      (fun i hi => h.resolve (by simp [Definition.iris, hi]) vocab) term
    have hcoercion := coercionOf_name d.coercion fun i hi => by
      have hspared := h.datatype i (by simp [Definition.datatype?, hi])
      exact ⟨Iri.isKeyword_of_isAbsolute hspared.absolute, hspared.resolve vocab⟩
    rw [hmembers]
    simp only [Context.define, hid, hreverse, htype, hcontainer, hback, hiri, hcoercion,
      containerOf?_name, bind, Except.bind]
    rw [← Option.isNone_iff_eq_none.mp h.unscoped]
    cases d
    rfl

/-! ## Contexts -/

/-- The keywords that are written set vocabulary and base as they were. -/
theorem foldlM_setKeyword_writtenAs (hwords : ctx.Words) :
    ctx.writtenAs.foldlM setKeyword .empty = .ok { ctx with terms := [] } := by
  have hkeywords : ctx.keywordMembers.foldlM setKeyword .empty = .ok { ctx with terms := [] } := by
    obtain ⟨vocab, base, terms⟩ := ctx
    cases vocab <;> cases base <;> rfl
  unfold writtenAs
  rw [List.foldlM_append, hkeywords]
  refine foldlM_setKeyword_plain (fun member hmember => ?_) _
  obtain ⟨e, he, rfl⟩ := List.mem_map.mp hmember
  exact hwords e he

/-- The members for words in what is written are those of the terms. -/
theorem wordMembers_writtenAs (hwords : ctx.Words) :
    wordMembers ctx.writtenAs = ctx.terms.map fun e => (e.1, e.2.toJson) := by
  have hkeywords : ctx.keywordMembers.filter (fun m => !Iri.isKeyword m.1) = [] :=
    List.filter_eq_nil_iff.mpr fun m hm => by simp [isKeyword_keywordMembers hm]
  have hterms : ∀ m ∈ ctx.terms.map fun e => (e.1, e.2.toJson),
      (!Iri.isKeyword m.1) = true := by
    intro m hm
    obtain ⟨e, he, rfl⟩ := List.mem_map.mp hm
    simp [hwords e he]
  rw [wordMembers, writtenAs, List.filter_append, hkeywords, List.nil_append,
    List.filter_eq_self.mpr hterms]

/-- The members of a flat context wrap no context, define what it has, and carry none. -/
theorem Flat.parse_writtenAs (h : ctx.Flat) : parse .empty (.obj ctx.writtenAs) = .ok ctx := by
  have hterm : ∀ m ∈ ctx.writtenAs, Iri.isKeyword m.1 = false →
      ∃ e ∈ ctx.terms, m = (e.1, e.2.toJson) := by
    intro m hm hword
    rcases List.mem_append.mp hm with hm | hm
    · rw [isKeyword_keywordMembers hm] at hword
      cases hword
    · obtain ⟨e, he, rfl⟩ := List.mem_map.mp hm
      exact ⟨e, he, rfl⟩
  have hwrapped : "@context" ∉ ctx.writtenAs.keys := by
    rw [keys_writtenAs, List.mem_append]
    rintro (hmem | hmem)
    · obtain ⟨m, hm, heq⟩ := List.mem_map.mp hmem
      rcases keywordMembers_cases hm with hm | hm <;> exact absurd (heq.symm.trans hm) (by decide)
    · obtain ⟨e, he, heq⟩ := List.mem_map.mp hmem
      exact absurd (h.words e he) (by rw [heq]; decide)
  have hscopes : ∀ key entry, (key, .obj entry) ∈ ctx.writtenAs →
      Assoc.get? entry "@context" = none := by
    intro key entry hm
    rcases List.mem_append.mp hm with hm | hm
    · unfold keywordMembers at hm
      simp at hm
    · obtain ⟨e, he, heq⟩ := List.mem_map.mp hm
      have hjson : e.2.toJson = .obj entry := (Prod.mk.inj heq).2
      rcases (h.definitions e he).toJson_cases with ⟨i, -, htext⟩ | hmembers
      · rw [htext] at hjson
        cases hjson
      · rw [hmembers] at hjson
        cases hjson
        exact (get?_entryMembers e.2).2.2.2.2
  rw [parse_defined (nodup_writtenAs h.words h.distinct) hwrapped
    (foldlM_setKeyword_writtenAs h.words) ?_ hscopes]
  · have hsame : ∀ e ∈ ctx.terms,
        (e.1, defined (resolve ctx.writtenAs .empty ctx.vocab) (e.1, e.2.toJson)) = e := by
      intro e he
      rw [defined_eq ((h.definitions e he).define ctx.vocab e.1)]
    have hterms := (List.map_congr_left hsame).trans (List.map_id' ctx.terms)
    rw [Context.definitions, wordMembers_writtenAs h.words, List.map_map]
    cases ctx
    exact congrArg (fun terms => Except.ok (Context.mk _ _ terms)) hterms
  · intro m hm hword
    obtain ⟨e, he, rfl⟩ := hterm m hm hword
    exact ⟨e.2, (h.definitions e he).define ctx.vocab e.1⟩

/-- **Flat contexts come back** as they were written, with vocabulary, base and all
definitions, the terms in their order. -/
theorem parse_toJson_flat (h : ctx.Flat) : parse .empty ctx.toJson = .ok ctx := by
  by_cases hempty : ctx = .empty
  · subst hempty
    rfl
  · rw [toJson_eq h.words h.distinct hempty]
    exact h.parse_writtenAs

/-- A library's context: a prefix, a name in another scheme, a type, a reverse property, and
sets of dates. -/
def library : Context where
  vocab := some "http://vocab.org/"
  base := some "http://example.org/"
  terms :=
    [("ex", .ofIri "http://example.org/"), ("isbn", .ofIri "urn:isbn"), ("kind", .ofIri "@type"),
      ("author", { Definition.ofIri "http://example.org/author" with coercion := some .id }),
      ("copies", { Definition.empty with reverse := some "urn:x:copyOf", container := some .list }),
      ("lent", { Definition.ofIri "http://example.org/lent" with
        coercion := some (.datatype "http://www.w3.org/2001/XMLSchema#date")
        container := some .set })]

/-- The library's context is read as it was written. -/
theorem parse_toJson_flat_library :
    library.Flat ∧ parse .empty library.toJson = .ok library := by
  have hflat : library.Flat := by decide +kernel
  exact ⟨hflat, parse_toJson_flat hflat⟩

end Context

end ObjectGraph
