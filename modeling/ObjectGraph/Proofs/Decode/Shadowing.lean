import Mathlib.Data.List.Pairwise
import ObjectGraph.Decode.Scope
import ObjectGraph.Proofs.Context.FlatContexts
import ObjectGraph.Proofs.Context.ShortNames

/-!
# Children that are read with their own names

A linked entity reads its context over that of its parent.  An object settles its names
itself (`OwnNames`) if each of them is an IRI in full, a keyword, or a compact IRI whose
prefix the object maps to an IRI in full: what such a name leads to does not depend on the
context beneath (`Stands.exists_iri`), and so the object defines the same terms over every
context (`OwnNames.definitions_eq`).

Read over the parent without the terms that are shadowed, a term is what the object alone
makes it, else what it is in the parent (`OwnNames.exists_scope`).  No term of the parent is
left that stands for an IRI of the object, so each of these IRIs has the same term as under
the object alone (`scope_of_child`).
-/

namespace ObjectGraph

open Json (Value Object)

/-- Two lists that have the same elements with a property, and one of them only one, have the
same first one. -/
theorem find?_eq_of_unique {α : Type} {p : α → Bool} {l l' : List α}
    (hsame : ∀ a, p a = true → (a ∈ l ↔ a ∈ l'))
    (hunique : ∀ a ∈ l', ∀ b ∈ l', p a = true → p b = true → a = b) :
    l.find? p = l'.find? p := by
  cases hfind : l.find? p with
  | none =>
      refine (List.find?_eq_none.mpr fun a ha hp => ?_).symm
      exact List.find?_eq_none.mp hfind a ((hsame a hp).mpr ha) hp
  | some a =>
      have hp := List.find?_some hfind
      have ha := (hsame a hp).mp (List.mem_of_find?_eq_some hfind)
      cases hfind' : l'.find? p with
      | none => exact (List.find?_eq_none.mp hfind' a ha hp).elim
      | some b =>
          rw [hunique a ha b (List.mem_of_find?_eq_some hfind') hp (List.find?_some hfind')]

/-- What entries without repetitions are made of has one entry for each of them. -/
theorem eq_of_nodup_filterMap {α β : Type} {f : α → Option β} {l : List α}
    (h : (l.filterMap f).Nodup) {a b : α} (ha : a ∈ l) (hb : b ∈ l) {c : β}
    (hfa : f a = some c) (hfb : f b = some c) : a = b := by
  have hsymm : Std.Symm fun a b => ∀ c, f a = some c → f b ≠ some c :=
    ⟨fun _ _ hmiss c hfa hfb => hmiss c hfb hfa⟩
  have hpairs : l.Pairwise fun a b => ∀ c, f a = some c → f b ≠ some c := by
    refine (List.pairwise_filterMap.mp h).imp fun hne c hfa hfb => ?_
    exact hne c hfa c hfb rfl
  by_contra hne
  exact hpairs.forall ha hb hne c hfa hfb

namespace Assoc

variable {α : Type}

/-- A key has its new value, or the one before if it has none. -/
theorem get?_foldl_insert {entries : Assoc α} (hkeys : (keys entries).Nodup) (m : Assoc α)
    (key : String) :
    get? (entries.foldl (fun m e => insert m e.1 e.2) m) key =
      (get? entries key).or (get? m key) := by
  induction entries generalizing m with
  | nil => rfl
  | cons e rest ih =>
      obtain ⟨k, v⟩ := e
      obtain ⟨hk, hrest⟩ := List.nodup_cons.mp hkeys
      rw [List.foldl_cons, ih hrest, get?_insert]
      by_cases h : k = key
      · subst h
        simp [get?, get?_eq_none_iff.mpr hk]
      · simp [get?, h]

/-- Entering one member after the other gives no key a second one. -/
theorem nodup_foldl_insert (entries : Assoc α) {m : Assoc α} (h : (keys m).Nodup) :
    (keys (entries.foldl (fun m e => insert m e.1 e.2) m)).Nodup := by
  induction entries generalizing m with
  | nil => exact h
  | cons e rest ih => exact ih (nodup_keys_insert h e.1 e.2)

/-- Of different keys, removing some leaves the values of all others. -/
theorem get?_foldl_erase {m : Assoc α} (hkeys : (keys m).Nodup) (gone : List String)
    (key : String) :
    get? (gone.foldl erase m) key = if key ∈ gone then none else get? m key := by
  induction gone generalizing m with
  | nil => simp
  | cons k rest ih =>
      have herased : (keys (erase m k)).Nodup := by
        rw [erase_eq_filter hkeys]
        exact hkeys.sublist (List.filter_sublist.map Prod.fst)
      have hself : get? (erase m k) k = none := by
        rw [erase_eq_filter hkeys, get?_eq_none_iff]
        simp [keys]
      rw [List.foldl_cons, ih herased]
      by_cases h : k = key
      · subst h
        simp [hself]
      · simp [Ne.symm h, get?_erase_of_ne m h]

end Assoc

namespace Context

/-! ## Names that an object settles -/

/-- An object has all members of another one under their keys. -/
def Keeps (own members : Object) : Prop :=
  ∀ key v, own.get? key = some v → members.get? key = some v

/-- A name that an object settles by itself: a keyword, an IRI in full, or a compact IRI whose
prefix the object maps to an IRI in full. -/
inductive Stands (own : Object) (w : String) : Prop
  | keyword (h : Iri.isKeyword w = true)
  | full (h : Full w)
  | compact {name rest stem : String} (hparts : Iri.compactParts? w = some (name, rest))
      (htarget : localTarget? own name = some stem) (hstem : Full stem)

/-- Nothing, or a name that the object settles. -/
def StandsIn (own : Object) (found : Option Value) : Prop :=
  ∀ v ∈ found, ∃ w, v = .str w ∧ Stands own w

/-- The value of a term that says what the term is mapped to, in names that the object
settles. -/
inductive Explicit (own : Object) : Value → Prop
  | text {w : String} (h : Stands own w) : Explicit own (.str w)
  | entry {entry : Object}
      (hmapped : (entry.get? "@id").isSome = true ∨ (entry.get? "@reverse").isSome = true)
      (hid : StandsIn own (entry.get? "@id")) (hreverse : StandsIn own (entry.get? "@reverse"))
      (htype : StandsIn own (entry.get? "@type")) : Explicit own (.obj entry)

/-- An object that maps each of its terms itself, and sets no vocabulary.  It wraps no
context and its members carry none. -/
structure OwnNames (own : Object) : Prop where
  keys : own.keys.Nodup
  unwrapped : "@context" ∉ own.keys
  noVocab : "@vocab" ∉ own.keys
  explicit : ∀ m ∈ own, Iri.isKeyword m.1 = false → Explicit own m.2
  unscoped : ∀ key entry, (key, .obj entry) ∈ own → Assoc.get? entry "@context" = none

variable {own members : Object} {base : Context} {vocab : Option String}

/-- What an object defines is defined in every object that keeps its members. -/
theorem localTarget?_of_keeps (hkeeps : Keeps own members) {name stem : String}
    (h : localTarget? own name = some stem) : localTarget? members name = some stem := by
  unfold localTarget? at h ⊢
  cases hv : own.get? name with
  | none =>
      rw [hv] at h
      cases h
  | some v =>
      rw [hv] at h
      rwa [hkeeps name v hv]

/-- A name that stands leads to one IRI, over every context. -/
theorem Stands.exists_iri {w : String} (h : Stands own w) :
    ∃ iri, ∀ {members base vocab}, Keeps own members →
      resolve members base vocab w = .ok iri := by
  cases hw : Iri.isKeyword w with
  | true => exact ⟨w, fun _ => resolve_keyword _ _ _ hw⟩
  | false =>
      cases h with
      | keyword h => exact absurd h (by simp [hw])
      | full h => exact ⟨w, fun _ => follow_own h.own (by simp) _⟩
      | @compact name rest stem hparts htarget hstem =>
          refine ⟨stem ++ rest, fun {members _ _} hkeeps => ?_⟩
          exact follow_compact hw hparts (localTarget?_of_keeps hkeeps htarget) hstem.own
            (by simp) (by simp) _

/-- Where there is a name that stands, it leads to one IRI. -/
theorem StandsIn.cases {found : Option Value} (h : StandsIn own found) :
    found = none ∨ ∃ w iri, found = some (.str w) ∧
      ∀ {members base vocab}, Keeps own members → resolve members base vocab w = .ok iri := by
  cases found with
  | none => exact .inl rfl
  | some v =>
      obtain ⟨w, rfl, hw⟩ := h v rfl
      obtain ⟨iri, hiri⟩ := hw.exists_iri
      exact .inr ⟨w, iri, rfl, hiri⟩

/-- A name that is settled is read backwards alike in all objects that keep the members. -/
theorem StandsIn.exists_reverse {found : Option Value} (h : StandsIn own found) :
    ∃ r, r.isSome = found.isSome ∧ ∀ {members base vocab}, Keeps own members →
      reverseOf (resolve members base vocab) found = .ok r := by
  rcases h.cases with rfl | ⟨w, iri, rfl, hiri⟩
  · exact ⟨none, rfl, fun _ => rfl⟩
  · exact ⟨some iri, rfl, fun hkeeps => by simp [reverseOf, hiri hkeeps, bind, Except.bind]⟩

/-- A name that is settled stands for one IRI in all objects that keep the members. -/
theorem StandsIn.exists_iri {found : Option Value} (h : StandsIn own found)
    {reverse : Option String} (hmapped : found.isSome = true ∨ reverse.isSome = true)
    (term : String) :
    ∃ i, ∀ {members base vocab}, Keeps own members →
      iriOf (resolve members base vocab) term reverse found = .ok i := by
  rcases h.cases with rfl | ⟨w, iri, rfl, hiri⟩
  · obtain ⟨back, rfl⟩ : ∃ back, reverse = some back := by
      simpa [Option.isSome_iff_exists] using hmapped
    exact ⟨none, fun _ => rfl⟩
  · exact ⟨some iri, fun hkeeps => by simp [iriOf, hiri hkeeps, bind, Except.bind]⟩

/-- A name that is settled gives one coercion in all objects that keep the members. -/
theorem StandsIn.exists_coercion {found : Option Value} (h : StandsIn own found) :
    ∃ c, ∀ {members base vocab}, Keeps own members →
      coercionOf (resolve members base vocab) found = .ok c := by
  rcases h.cases with rfl | ⟨w, iri, rfl, hiri⟩
  · exact ⟨none, fun _ => rfl⟩
  · by_cases hid : w = "@id"
    · exact ⟨some .id, fun _ => by rw [hid]; rfl⟩
    by_cases hvocab : w = "@vocab"
    · exact ⟨some .vocab, fun _ => by rw [hvocab]; rfl⟩
    by_cases hjson : w = "@json"
    · exact ⟨some .json, fun _ => by rw [hjson]; rfl⟩
    · exact ⟨some (.datatype iri), fun hkeeps => by
        rw [coercionOf_text hid hvocab hjson, hiri hkeeps]
        rfl⟩

/-- A value in names that stand is read as one definition, over every context. -/
theorem Explicit.exists_define {v : Value} (h : Explicit own v) (term : String) :
    ∃ d, ∀ {members base vocab}, Keeps own members →
      define (resolve members base vocab) term v = .ok d := by
  cases h with
  | text h =>
      obtain ⟨iri, hiri⟩ := h.exists_iri
      exact ⟨.ofIri iri, fun hkeeps => by simp [define, hiri hkeeps, bind, Except.bind]⟩
  | @entry entry hmapped hid hreverse htype =>
      obtain ⟨r, hsome, hr⟩ := hreverse.exists_reverse
      obtain ⟨i, hi⟩ := hid.exists_iri (hsome ▸ hmapped) term
      obtain ⟨c, hc⟩ := htype.exists_coercion
      exact ⟨⟨i, c, r, containerOf? (entry.get? "@container"), none⟩, fun hkeeps => by
        simp only [define, hr hkeeps, hi hkeeps, hc hkeeps, bind, Except.bind]⟩

/-! ## Objects over a context -/

/-- What an object alone defines. -/
def ownDefinitions (own : Object) : Assoc Definition :=
  definitions (resolve own .empty none) own

/-- The object defines each of its keys that is no keyword. -/
theorem mem_keys_ownDefinitions {term : String} :
    term ∈ Assoc.keys (ownDefinitions own) ↔
      term ∈ own.keys ∧ Iri.isKeyword term = false := by
  rw [ownDefinitions, keys_definitions, wordMembers]
  cases hword : Iri.isKeyword term <;> simp [Assoc.keys, hword]

namespace OwnNames

/-- Each term of the object is defined over every context as by the object alone. -/
theorem define_eq (h : OwnNames own) {m : String × Value} (hm : m ∈ own)
    (hword : Iri.isKeyword m.1 = false) (hkeeps : Keeps own members) :
    define (resolve members base vocab) m.1 m.2 = .ok (defined (resolve own .empty none) m) := by
  obtain ⟨d, hd⟩ := (h.explicit m hm hword).exists_define m.1
  rw [hd hkeeps, defined_eq (hd fun _ _ => id)]

/-- An object with names of its own defines the same within every object that keeps its members. -/
theorem definitions_eq (h : OwnNames own) (hkeeps : Keeps own members) (base : Context)
    (vocab : Option String) :
    definitions (resolve members base vocab) own = ownDefinitions own := by
  refine List.map_congr_left fun m hm => ?_
  obtain ⟨hmem, hword⟩ := List.mem_filter.mp hm
  rw [defined_eq (h.define_eq hmem (by simpa using hword) hkeeps)]

/-- An object with names of its own defines each of them once. -/
theorem nodup (h : OwnNames own) : (Assoc.keys (ownDefinitions own)).Nodup :=
  nodup_definitions _ h.keys

/-- Alone the object is read. -/
theorem exists_alone (h : OwnNames own) :
    ∃ alone, parse .empty (.obj own) = .ok alone ∧ alone.terms = ownDefinitions own := by
  obtain ⟨opened, hopened⟩ := exists_opened
    (fun m hm heq => (h.noVocab (List.mem_map.mpr ⟨m, hm, heq⟩)).elim) .empty
  have hparse := parse_defined h.keys h.unwrapped hopened
    (fun m hm hword => ⟨_, h.define_eq hm hword fun _ _ => id⟩) h.unscoped
  exact ⟨_, hparse, h.definitions_eq (fun _ _ => id) .empty opened.vocab⟩

end OwnNames

/-- The members that remove terms. -/
def nulls (gone : List String) : Object :=
  gone.map fun term => (term, .null)

/-- The removed terms are the keys of the members that remove them. -/
theorem keys_nulls (gone : List String) : (nulls gone).keys = gone := by
  simp [nulls, Assoc.keys, Function.comp_def]

/-- Members that are null remove their terms. -/
theorem foldlM_setTerm_nulls (resolve : String → Except ContextError String)
    {gone : List String} (hwords : ∀ term ∈ gone, Iri.isKeyword term = false) (ctx : Context) :
    (nulls gone).foldlM (setTerm resolve) ctx =
      .ok { ctx with terms := gone.foldl Assoc.erase ctx.terms } := by
  induction gone generalizing ctx with
  | nil => cases ctx; rfl
  | cons term rest ih =>
      obtain ⟨hterm, hrest⟩ := List.forall_mem_cons.mp hwords
      have hset : setTerm resolve ctx (term, .null) = .ok (ctx.erase term) := by
        simp [setTerm, hterm]
      rw [nulls, List.map_cons, List.foldlM_cons, hset]
      exact ih hrest _

section Nulls

variable {gone : List String} (hwords : ∀ term ∈ gone, Iri.isKeyword term = false)

include hwords in
/-- Keywords are not removed. -/
theorem not_mem_nulls {key : String} (hkey : Iri.isKeyword key = true) :
    key ∉ (nulls gone).keys := by
  rw [keys_nulls]
  intro hmem
  have hword := hwords key hmem
  rw [hkey] at hword
  cases hword

include hwords in
/-- Null members wrap no context and carry none. -/
theorem OwnNames.parse_nulls (h : OwnNames own) (base : Context) :
    parse base (.obj (own ++ nulls gone)) = parseTerms base (own ++ nulls gone) := by
  refine parse_unscoped ?_ ?_ base
  · rw [Assoc.keys, List.map_append, List.mem_append]
    rintro (hmem | hmem)
    · exact h.unwrapped hmem
    · exact not_mem_nulls hwords (by decide) hmem
  · intro key entry hmem
    rcases List.mem_append.mp hmem with hmem | hmem
    · exact h.unscoped key entry hmem
    · simp [nulls] at hmem

include hwords in
/-- The keywords of the object leave the terms of the context. -/
theorem OwnNames.exists_opened (h : OwnNames own) (base : Context) :
    ∃ opened, (own ++ nulls gone).foldlM setKeyword base = .ok opened ∧
      opened.terms = base.terms := by
  obtain ⟨opened, hopened⟩ :
      ∃ opened, (own ++ nulls gone).foldlM setKeyword base = .ok opened := by
    refine Context.exists_opened (fun m hm heq => ?_) base
    rcases List.mem_append.mp hm with hm | hm
    · exact (h.noVocab (List.mem_map.mpr ⟨m, hm, heq⟩)).elim
    · exact (not_mem_nulls hwords (by decide) (List.mem_map.mpr ⟨m, hm, heq⟩)).elim
  refine ⟨opened, hopened, ?_⟩
  exact @Kept.foldlM base opened _ (· = base.terms) _
    (fun _ _ _ hsame hset => (setKeyword_spec hset).1.trans hsame) rfl hopened

include hwords in
/-- The object enters its own definitions, and its nulls remove terms. -/
theorem OwnNames.exists_terms (h : OwnNames own) (base : Context) :
    ∃ scope, parseTerms base (own ++ nulls gone) = .ok scope ∧
      scope.terms = gone.foldl Assoc.erase
        ((ownDefinitions own).foldl (fun terms e => Assoc.insert terms e.1 e.2) base.terms) := by
  have hkeeps : Keeps own (own ++ nulls gone) := fun key v hv => by
    rw [Assoc.get?_append, hv, Option.some_or]
  obtain ⟨opened, hopened, hterms⟩ := h.exists_opened hwords base
  have hown : own.foldlM (setTerm (resolve (own ++ nulls gone) base opened.vocab)) opened =
      .ok { opened with
        terms := (ownDefinitions own).foldl (fun terms e => Assoc.insert terms e.1 e.2)
          base.terms } := by
    rw [foldlM_setTerm_accepted (fun m hm hword => ⟨_, h.define_eq hm hword hkeeps⟩),
      h.definitions_eq hkeeps, hterms]
  rw [parseTerms]
  simp only [hopened, List.foldlM_append, hown, foldlM_setTerm_nulls _ hwords, bind, Except.bind]
  exact ⟨_, rfl, rfl⟩

include hwords in
/-- **An object over a context**, with some terms removed: any other term is what the object
alone makes it, else what it is in the context. -/
theorem OwnNames.exists_scope (h : OwnNames own) (hdistinct : base.Distinct) :
    ∃ scope, parse base (.obj (own ++ nulls gone)) = .ok scope ∧ scope.Distinct ∧
      ∀ term, scope.get? term = if term ∈ gone then none
        else (Assoc.get? (ownDefinitions own) term).or (base.get? term) := by
  obtain ⟨scope, hread, hterms⟩ := h.exists_terms hwords base
  have hparse := (h.parse_nulls hwords base).trans hread
  have hentered := Assoc.nodup_foldl_insert (ownDefinitions own) hdistinct
  refine ⟨scope, hparse, kept_distinct.parse _ hdistinct hparse, fun term => ?_⟩
  rw [get?, hterms, Assoc.get?_foldl_erase hentered, Assoc.get?_foldl_insert h.nodup]
  rfl

end Nulls

/-- Some term stands for the IRI, be it read backwards. -/
def Maps (ctx : Context) (iri : String) : Prop :=
  ∃ e ∈ ctx.terms, iri ∈ e.2.iris

/-- No IRI has two terms of one direction. -/
structure Unambiguous (ctx : Context) : Prop where
  forward : (ctx.terms.filterMap fun e => if e.2.isReverse then none else e.2.iri).Nodup
  backward : (ctx.terms.filterMap (·.2.reverse)).Nodup

instance (ctx : Context) : Decidable ctx.Unambiguous :=
  decidable_of_iff ((ctx.terms.filterMap fun e => if e.2.isReverse then none else e.2.iri).Nodup ∧
      (ctx.terms.filterMap (·.2.reverse)).Nodup)
    ⟨fun h => ⟨h.1, h.2⟩, fun h => ⟨h.1, h.2⟩⟩

/-- Two contexts that have the same definitions for an IRI, and one of them one in each
direction, have the same terms for it. -/
theorem Unambiguous.terms_eq {ctx other : Context} (h : ctx.Unambiguous) {iri : String}
    (hmem : ∀ e : String × Definition, iri ∈ e.2.iris → (e ∈ other.terms ↔ e ∈ ctx.terms)) :
    other.termFor? iri = ctx.termFor? iri ∧
      other.reverseTermFor? iri = ctx.reverseTermFor? iri := by
  have hforward : ∀ e : String × Definition, (!e.2.isReverse && e.2.iri == some iri) = true →
      (if e.2.isReverse then none else e.2.iri) = some iri := by
    intro e he
    obtain ⟨hplain, hiri⟩ := mapsTo_iff.mp he
    simpa [Definition.isReverse, hplain] using hiri
  constructor
  · refine find?_eq_of_unique (fun e he => hmem e ?_) fun e he e' he' hp hp' => ?_
    · simp [Definition.iris, (mapsTo_iff.mp he).2]
    · exact eq_of_nodup_filterMap h.forward he he' (hforward e hp) (hforward e' hp')
  · refine find?_eq_of_unique (fun e he => hmem e ?_) fun e he e' he' hp hp' => ?_
    · simp [Definition.iris, beq_iff_eq.mp he]
    · exact eq_of_nodup_filterMap h.backward he he' (beq_iff_eq.mp hp) (beq_iff_eq.mp hp')

/-- A term has one definition in a context of distinct terms. -/
theorem Distinct.mem_iff {ctx : Context} (h : ctx.Distinct) {e : String × Definition} :
    e ∈ ctx.terms ↔ ctx.get? e.1 = some e.2 :=
  (Assoc.get?_eq_some_iff h).symm

end Context

namespace Decode

open Context (OwnNames nulls ownDefinitions)

variable {parent alone : Context} {own : Object}

/-! ## The terms that are shadowed -/

/-- The terms of a parent that a child does not define, but whose IRIs it maps terms to. -/
def shadowedTerms (parent alone : Context) : List String :=
  (parent.terms.filter fun e =>
    !alone.contains e.1 && e.2.iris.any (alone.terms.flatMap (·.2.iris)).contains).map (·.1)

/-- A term is shadowed if the child does not define it, but maps some term to one of its IRIs. -/
theorem mem_shadowedTerms (hdistinct : parent.Distinct) {term : String} :
    term ∈ shadowedTerms parent alone ↔
      alone.get? term = none ∧
        ∃ d, parent.get? term = some d ∧ ∃ i ∈ d.iris, alone.Maps i := by
  have hshadowed : ∀ e : String × Definition,
      (!alone.contains e.1 && e.2.iris.any (alone.terms.flatMap (·.2.iris)).contains) = true ↔
        alone.get? e.1 = none ∧ ∃ i ∈ e.2.iris, alone.Maps i := by
    intro e
    simp [Context.contains, Assoc.contains, Context.get?, Context.Maps]
  unfold shadowedTerms
  simp only [List.mem_map, List.mem_filter, hshadowed, hdistinct.mem_iff]
  constructor
  · rintro ⟨e, ⟨hparent, hnone, hnamed⟩, rfl⟩
    exact ⟨hnone, e.2, hparent, hnamed⟩
  · rintro ⟨hnone, d, hparent, hnamed⟩
    exact ⟨(term, d), ⟨hparent, hnone, hnamed⟩, rfl⟩

/-- The shadowed terms of a parent are words that the child does not have for keys. -/
theorem shadowedTerms_new (hwords : parent.Words) (hterms : alone.terms = ownDefinitions own)
    {term : String} (h : term ∈ shadowedTerms parent alone) :
    Iri.isKeyword term = false ∧ term ∉ own.keys := by
  obtain ⟨e, he, rfl⟩ := List.mem_map.mp h
  obtain ⟨hmem, hshadowed⟩ := List.mem_filter.mp he
  have hword := hwords e hmem
  refine ⟨hword, fun hkey => ?_⟩
  have hown := Context.mem_keys_ownDefinitions.mpr ⟨hkey, hword⟩
  rw [← hterms, ← Assoc.contains_iff] at hown
  simp [Context.contains, hown] at hshadowed

/-- The child has null behind its members for each shadowed term. -/
theorem shadowInherited_eq (h : OwnNames own) (hwords : parent.Words)
    (hdistinct : parent.Distinct) (halone : Context.parse .empty (.obj own) = .ok alone)
    (hterms : alone.terms = ownDefinitions own) :
    shadowInherited parent own = .ok (own ++ nulls (shadowedTerms parent alone)) := by
  have hnew : (own.keys ++ (nulls (shadowedTerms parent alone)).keys).Nodup := by
    rw [Context.keys_nulls]
    refine List.nodup_append.mpr ⟨h.keys, hdistinct.sublist (List.filter_sublist.map _), ?_⟩
    rintro _ hkey term hterm rfl
    exact (shadowedTerms_new hwords hterms hterm).2 hkey
  rw [← Assoc.foldl_insert _ _ hnew, shadowInherited, halone]
  simp only [nulls, shadowedTerms, List.map_map, List.foldl_map, List.foldl_filter, bind,
    Except.bind]
  rfl

/-- What stands for an IRI of the child is the child's own definition: those of the parent are
shadowed or replaced. -/
theorem mem_scope_iff {scope : Context} (hdistinct : parent.Distinct) (halone : alone.Distinct)
    (hscope : scope.Distinct)
    (hget : ∀ term, scope.get? term = if term ∈ shadowedTerms parent alone then none
      else (alone.get? term).or (parent.get? term))
    {e : String × Definition} {iri : String} (he : iri ∈ e.2.iris) (hiri : alone.Maps iri) :
    e ∈ scope.terms ↔ e ∈ alone.terms := by
  rw [hscope.mem_iff, halone.mem_iff, hget]
  cases hown : alone.get? e.1 with
  | some d =>
      have hkept : e.1 ∉ shadowedTerms parent alone := fun hmem => by
        rw [((mem_shadowedTerms hdistinct).mp hmem).1] at hown
        cases hown
      rw [if_neg hkept, Option.some_or]
  | none =>
      rw [Option.none_or]
      simp only [reduceCtorEq, iff_false]
      intro hfound
      obtain ⟨hkept, hparent⟩ := Option.ite_none_left_eq_some.mp hfound
      exact hkept ((mem_shadowedTerms hdistinct).mpr ⟨hown, e.2, hparent, iri, he, hiri⟩)

/-- **A child is read with its own names.**  Its object, with the terms of the parent shadowed
that stand for IRIs of its own, is read over the parent; if alone no IRI has two terms of one
direction, each of its IRIs has the term that it has alone, forward and backward.  The terms of
the parent that the child neither redefines nor shares an IRI with are there unchanged.  The
parent may be every context that is read (`Context.Read.words`, `Context.Read.distinct`). -/
theorem scope_of_child (hwords : parent.Words) (hdistinct : parent.Distinct)
    (h : OwnNames own) :
    ∃ alone shadowed scope, Context.parse .empty (.obj own) = .ok alone ∧
      shadowInherited parent own = .ok shadowed ∧
      Context.parse parent (.obj shadowed) = .ok scope ∧
      (alone.Unambiguous → ∀ iri, alone.Maps iri →
        scope.termFor? iri = alone.termFor? iri ∧
          scope.reverseTermFor? iri = alone.reverseTermFor? iri) ∧
      ∀ term d, parent.get? term = some d → own.get? term = none →
        (∀ i ∈ d.iris, ¬ alone.Maps i) → scope.get? term = some d := by
  obtain ⟨alone, halone, hterms⟩ := h.exists_alone
  have hdistinctAlone : alone.Distinct := (Context.Read.above .empty halone).distinct
  obtain ⟨scope, hscope, hdistinctScope, hget⟩ := h.exists_scope
    (fun term hterm => (shadowedTerms_new hwords hterms hterm).1) hdistinct
  have hget : ∀ term, scope.get? term = if term ∈ shadowedTerms parent alone then none
      else (alone.get? term).or (parent.get? term) := fun term => by
    rw [hget, ← hterms]
    rfl
  refine ⟨alone, _, scope, halone, shadowInherited_eq h hwords hdistinct halone hterms, hscope,
    fun hunambiguous iri hiri => ?_, fun term d hd hown hforeign => ?_⟩
  · exact hunambiguous.terms_eq fun e he =>
      mem_scope_iff hdistinct hdistinctAlone hdistinctScope hget he hiri
  · have hnone : alone.get? term = none := by
      rw [Context.get?, hterms, Assoc.get?_eq_none_iff]
      exact fun hmem =>
        Assoc.get?_eq_none_iff.mp hown (Context.mem_keys_ownDefinitions.mp hmem).1
    have hkept : term ∉ shadowedTerms parent alone := fun hmem => by
      obtain ⟨-, d', hd', i, hi, hnamed⟩ := (mem_shadowedTerms hdistinct).mp hmem
      rw [hd] at hd'
      exact hforeign i (Option.some.inj hd' ▸ hi) hnamed
    rw [hget, if_neg hkept, hnone, hd, Option.none_or]

/-- A project has a prefix, a title and a label. -/
def projectContext : Context where
  vocab := none
  base := none
  terms :=
    [("ex", .ofIri "http://example.org/"), ("title", .ofIri "http://example.org/title"),
      ("label", .ofIri "http://example.org/label")]

/-- A note, which calls the title its name. -/
def noteObject : Object :=
  [("ex", .str "http://example.org/"), ("name", .str "ex:title"),
    ("project", .obj [("@id", .str "ex:project"), ("@type", .str "@id")]),
    ("notes", .obj [("@reverse", .str "ex:note")])]

/-- The note's object has names of its own. -/
theorem ownNames_noteObject : OwnNames noteObject where
  keys := by decide +kernel
  unwrapped := by decide +kernel
  noVocab := by decide +kernel
  explicit := by
    have hex : Context.Full "http://example.org/" := ⟨by decide +kernel, by decide +kernel⟩
    have hcompact : ∀ rest : String, Iri.compactParts? ("ex:" ++ rest) = some ("ex", rest) →
        Context.Stands noteObject ("ex:" ++ rest) := fun rest hparts =>
      .compact hparts rfl hex
    intro m hm _
    simp only [noteObject, List.mem_cons, List.not_mem_nil, or_false] at hm
    rcases hm with rfl | rfl | rfl | rfl
    · exact .text (.full hex)
    · exact .text (hcompact "title" (by decide +kernel))
    · refine .entry (.inl rfl) ?_ ?_ ?_
      · rintro _ ⟨⟩
        exact ⟨_, rfl, hcompact "project" (by decide +kernel)⟩
      · exact nofun
      · rintro _ ⟨⟩
        exact ⟨_, rfl, .keyword (by decide +kernel)⟩
    · refine .entry (.inr rfl) nofun ?_ nofun
      rintro _ ⟨⟩
      exact ⟨_, rfl, hcompact "note" (by decide +kernel)⟩
  unscoped := by
    intro key entry hm
    simp only [noteObject, List.mem_cons, List.not_mem_nil, or_false] at hm
    rcases hm with hm | hm | hm | hm <;> cases hm <;> rfl

/-- The note's context if it is read alone. -/
def noteContext : Context where
  vocab := none
  base := none
  terms :=
    [("ex", .ofIri "http://example.org/"), ("name", .ofIri "http://example.org/title"),
      ("project", { Definition.ofIri "http://example.org/project" with coercion := some .id }),
      ("notes", { Definition.empty with reverse := some "http://example.org/note" })]

/-- In its project the note keeps its name for titles, and the project's own one is gone. -/
theorem scope_of_child_note : ∃ shadowed scope,
    Context.parse .empty (.obj noteObject) = .ok noteContext ∧
      shadowInherited projectContext noteObject = .ok shadowed ∧
      Context.parse projectContext (.obj shadowed) = .ok scope ∧
      scope.termFor? "http://example.org/title" =
        some ("name", .ofIri "http://example.org/title") ∧
      (scope.reverseTermFor? "http://example.org/note").map (·.1) = some "notes" ∧
      scope.get? "label" = some (.ofIri "http://example.org/label") := by
  have hwords : projectContext.Words := by unfold Context.Words; decide +kernel
  have hdistinct : projectContext.Distinct := by unfold Context.Distinct; decide +kernel
  obtain ⟨alone, shadowed, scope, halone, hshadowed, hscope, hterms, hkept⟩ :=
    scope_of_child hwords hdistinct ownNames_noteObject
  obtain rfl : alone = noteContext := Except.ok.inj (halone.symm.trans rfl)
  have hunambiguous : noteContext.Unambiguous := by decide +kernel
  have htitle : noteContext.Maps "http://example.org/title" :=
    ⟨("name", .ofIri "http://example.org/title"), by simp [noteContext],
      by simp [Definition.iris, Definition.ofIri]⟩
  have hnote : noteContext.Maps "http://example.org/note" :=
    ⟨("notes", { Definition.empty with reverse := some "http://example.org/note" }),
      by simp [noteContext], by simp [Definition.iris]⟩
  have hlabel : ¬ noteContext.Maps "http://example.org/label" := by
    simp [Context.Maps, noteContext, Definition.iris, Definition.ofIri, Definition.empty]
  refine ⟨shadowed, scope, halone, hshadowed, hscope, ?_, ?_, ?_⟩
  · rw [(hterms hunambiguous _ htitle).1]
    rfl
  · rw [(hterms hunambiguous _ hnote).2]
    rfl
  · exact hkept "label" _ rfl rfl (by simpa [Definition.iris, Definition.ofIri, Definition.empty])

end Decode

end ObjectGraph
