import ObjectGraph.Proofs.Context.Settled
import ObjectGraph.Proofs.Context.Words
import ObjectGraph.Proofs.Json.Reordering

/-!
# The order of keys in a context

An object defines each of its terms from its members and the context beneath, and never from
what it has defined so far: a term that is defined through another one is followed to the
member of that one, wherever it stands.  So what the object says can be written down key by
key: whether it is accepted (`Accepted`), and which vocabulary, base and definitions it leaves
(`parse_says`).  Only look-ups of members occur there, and these do not depend on the order of
members, in the object itself or in the definitions in it (`parse_reordered`).
-/

namespace ObjectGraph.Context

open Json (Value Object)
open Json.Value (Reordered ReorderedItems)

/-! ## What an object says, key by key -/

/-- The base that an object sets over a context. -/
def baseOf (base : Context) (members : Object) : Option String :=
  match Assoc.get? members "@base" with
  | some v => v.asText?
  | none => base.base

/-- The definition of a term behind an object, from its member and the definition beneath. -/
def entryFor (resolve : String → Except ContextError String) (term : String)
    (beneath : Option Definition) : Option Value → Option Definition
  | none => beneath
  | some .null => none
  | some v => (define resolve term v).toOption

/-- A member that is not null gives its term a definition of its own. -/
theorem entryFor_of_ne_null {resolve : String → Except ContextError String} {term : String}
    {beneath : Option Definition} {v : Value} (hv : v ≠ .null) :
    entryFor resolve term beneath (some v) = (define resolve term v).toOption := by
  cases v with
  | null => exact (hv rfl).elim
  | bool | num | str | arr | obj => rfl

/-- What the object says of a term; a keyword is none. -/
def entryOf (base : Context) (members : Object) (term : String) : Option Definition :=
  if Iri.isKeyword term then base.get? term
  else
    entryFor (resolve members base (vocabOf base members)) term (base.get? term)
      (Assoc.get? members term)

/-- What the vocabulary may be: a text, or null for none. -/
def IsVocabulary : Option Value → Prop
  | none | some .null | some (.str _) => True
  | some _ => False

/-- What a term may be: null for none, or what defines it. -/
def IsEntry (resolve : String → Except ContextError String) (term : String) :
    Option Value → Prop
  | none | some .null => True
  | some v => ∃ d, define resolve term v = .ok d

/-- A member that is not null is an entry if it defines its term. -/
theorem isEntry_of_ne_null {resolve : String → Except ContextError String} {term : String}
    {v : Value} (hv : v ≠ .null) :
    IsEntry resolve term (some v) ↔ ∃ d, define resolve term v = .ok d := by
  cases v with
  | null => exact (hv rfl).elim
  | bool | num | str | arr | obj => exact Iff.rfl

/-- The object is accepted over the context. -/
structure Accepted (base : Context) (members : Object) : Prop where
  vocab : IsVocabulary (Assoc.get? members "@vocab")
  entries : ∀ term, Iri.isKeyword term = false →
    IsEntry (resolve members base (vocabOf base members)) term (Assoc.get? members term)

/-- An object with one member for each key and no context within it, at any depth. -/
structure Unscoped (members : Object) : Prop where
  distinct : ∀ keys ∈ (Value.obj members).keysWithin, keys.Nodup
  unscoped : ∀ keys ∈ (Value.obj members).keysWithin, "@context" ∉ keys

variable {base ctx ctx' : Context} {members others : Object}
  {resolve : String → Except ContextError String}

namespace Unscoped

variable (h : Unscoped members)

include h

/-- There is one member for each key. -/
theorem keys : members.keys.Nodup :=
  h.distinct _ List.mem_cons_self

theorem unwrapped : "@context" ∉ members.keys :=
  h.unscoped _ List.mem_cons_self

/-- A definition has one member for each key, too. -/
theorem entry_keys {key : String} {entry : Object} (hentry : (key, .obj entry) ∈ members) :
    entry.keys.Nodup :=
  h.distinct _ (Json.Value.keysWithin_subset hentry List.mem_cons_self)

/-- There is no context within the definitions. -/
theorem entry_unscoped {key : String} {entry : Object} (hentry : (key, .obj entry) ∈ members) :
    Assoc.get? entry "@context" = none :=
  Assoc.get?_eq_none_iff.mpr
    (h.unscoped _ (Json.Value.keysWithin_subset hentry List.mem_cons_self))

/-- The object is read by its members. -/
theorem parse_eq (base : Context) : parse base (.obj members) = parseTerms base members :=
  parse_unscoped h.unwrapped (fun _ _ => h.entry_unscoped) base

end Unscoped

/-! ## Acceptance -/

/-- Where each member is accepted or not by itself, all members are accepted one after the
other exactly if each one is. -/
theorem foldlM_ok_iff {step : Context → String × Value → Except ContextError Context}
    {accepts : String × Value → Prop}
    (hstep : ∀ ctx member, (∃ ctx', step ctx member = .ok ctx') ↔ accepts member) :
    (∃ ctx', members.foldlM step ctx = .ok ctx') ↔ ∀ member ∈ members, accepts member := by
  induction members generalizing ctx with
  | nil => simp [pure, Except.pure]
  | cons member rest ih =>
      rw [List.foldlM_cons, List.forall_mem_cons, ← hstep ctx member]
      cases step ctx member with
      | error x => simp [bind, Except.bind]
      | ok next => simpa [bind, Except.bind] using ih

/-- A keyword is accepted unless it is `@vocab` with neither a text nor null. -/
theorem setKeyword_ok_iff (ctx : Context) (member : String × Value) :
    (∃ ctx', setKeyword ctx member = .ok ctx') ↔
      (member.1 = "@vocab" → IsVocabulary (some member.2)) := by
  obtain ⟨key, v⟩ := member
  by_cases hkey : key = "@vocab"
  · subst hkey
    cases v <;> simp [setKeyword, IsVocabulary]
  · refine ⟨fun _ h => (hkey h).elim, fun _ => ?_⟩
    unfold setKeyword
    split <;> simp_all

/-- A term is accepted if its member is an entry. -/
theorem setTerm_ok_iff (ctx : Context) (member : String × Value) :
    (∃ ctx', setTerm resolve ctx member = .ok ctx') ↔
      (Iri.isKeyword member.1 = false → IsEntry resolve member.1 (some member.2)) := by
  obtain ⟨key, v⟩ := member
  cases hkey : Iri.isKeyword key with
  | true => simp [setTerm, hkey]
  | false =>
      have hdefined : ∀ {result : Except ContextError Definition},
          (∃ ctx', (result >>= fun d => .ok (ctx.insert key d)) = .ok ctx') ↔
            ∃ d, result = .ok d := by
        intro result
        cases result <;> simp [bind, Except.bind]
      cases v with
      | null => simp [setTerm, hkey, IsEntry]
      | bool | num | str | arr | obj => simpa [setTerm, hkey, IsEntry] using hdefined

/-- Something holds of all members exactly if it holds of what is found under each key. -/
theorem forall_mem_iff_found (holds : String → Option Value → Prop) (hkeys : members.keys.Nodup)
    (hnone : ∀ key, holds key none) :
    (∀ member ∈ members, holds member.1 (some member.2)) ↔
      ∀ key, holds key (Assoc.get? members key) := by
  constructor
  · intro h key
    cases hv : Assoc.get? members key with
    | none => exact hnone key
    | some v => exact h (key, v) (Assoc.mem_of_get? hv)
  · intro h member hmember
    exact Assoc.get?_of_mem hkeys hmember ▸ h member.1

/-- **An object is read** exactly if it is accepted. -/
theorem exists_parse_iff (h : Unscoped members) (base : Context) :
    (∃ ctx, parse base (.obj members) = .ok ctx) ↔ Accepted base members := by
  have hopened : (∃ ctx, members.foldlM setKeyword base = .ok ctx) ↔
      IsVocabulary (Assoc.get? members "@vocab") := by
    rw [foldlM_ok_iff setKeyword_ok_iff,
      forall_mem_iff_found (fun key v => key = "@vocab" → IsVocabulary v) h.keys
        fun _ _ => trivial]
    exact forall_eq
  have hnamed : ∀ resolve ctx, (∃ ctx', members.foldlM (setTerm resolve) ctx = .ok ctx') ↔
      ∀ term, Iri.isKeyword term = false → IsEntry resolve term (Assoc.get? members term) := by
    intro resolve ctx
    rw [foldlM_ok_iff setTerm_ok_iff,
      forall_mem_iff_found
        (fun key v => Iri.isKeyword key = false → IsEntry resolve key v) h.keys
        fun _ _ => trivial]
  rw [h.parse_eq, parseTerms]
  cases hkeywords : members.foldlM setKeyword base with
  | error x =>
      constructor
      · rintro ⟨ctx, hctx⟩
        cases hctx
      · intro haccepted
        obtain ⟨ctx, hctx⟩ := hopened.mpr haccepted.vocab
        rw [hkeywords] at hctx
        cases hctx
  | ok ctx =>
      have haccepted := hnamed (resolve members base ctx.vocab) ctx
      rw [(foldlM_setKeyword h.keys hkeywords).2] at haccepted
      simp only [bind, Except.bind, (foldlM_setKeyword h.keys hkeywords).2]
      refine haccepted.trans ⟨fun hentries => ⟨hopened.mp ⟨ctx, hkeywords⟩, hentries⟩, ?_⟩
      exact Accepted.entries

/-! ## What is left -/

/-- The base is what stands under `@base`, and nothing else touches it. -/
theorem setKeyword_base {member : String × Value} (h : setKeyword ctx member = .ok ctx') :
    ctx'.base = if member.1 = "@base" then member.2.asText? else ctx.base := by
  unfold setKeyword at h
  split at h
  case h_3 => cases h
  case h_5 =>
    cases h
    next hbase =>
      exact (if_neg fun hname => hbase member.2 (Prod.ext hname rfl)).symm
  all_goals
    cases h
    rfl

/-- All keyword members together set the base that the object sets. -/
theorem foldlM_setKeyword_base (hkeys : members.keys.Nodup)
    (h : members.foldlM setKeyword base = .ok ctx) : ctx.base = baseOf base members := by
  induction members generalizing base with
  | nil =>
      cases h
      rfl
  | cons member rest ih =>
      obtain ⟨key, v⟩ := member
      obtain ⟨hkey, hrest⟩ := List.nodup_cons.mp hkeys
      rw [List.foldlM_cons] at h
      cases hset : setKeyword base (key, v) with
      | error x => simp [hset, bind, Except.bind] at h
      | ok middle =>
          simp only [hset, bind, Except.bind] at h
          have hbase := setKeyword_base hset
          rw [ih hrest h]
          by_cases hname : key = "@base"
          · subst hname
            have hnone : Assoc.get? rest "@base" = none := Assoc.get?_eq_none_iff.mpr hkey
            simp [baseOf, hnone, Assoc.get?, hbase]
          · rw [if_neg hname] at hbase
            simp [baseOf, Assoc.get?, hname, hbase]

/-- A term is no longer defined once it is removed. -/
theorem get?_erase_self (h : ctx.Distinct) (term : String) : (ctx.erase term).get? term = none := by
  unfold get? erase
  rw [Assoc.get?_eq_none_iff, Assoc.erase_eq_filter h]
  simp [Assoc.keys]

/-- A term leaves vocabulary and base alone. -/
theorem setTerm_frame {member : String × Value} (h : setTerm resolve ctx member = .ok ctx') :
    ctx'.vocab = ctx.vocab ∧ ctx'.base = ctx.base := by
  unfold setTerm at h
  split at h
  next =>
    cases h
    exact ⟨rfl, rfl⟩
  next =>
    split at h
    next =>
      cases h
      exact ⟨rfl, rfl⟩
    next =>
      cases hd : define resolve member.1 member.2 with
      | error x => simp [hd, bind, Except.bind] at h
      | ok d =>
          simp only [hd, bind, Except.bind, Except.ok.injEq] at h
          subst h
          exact ⟨rfl, rfl⟩

/-- A member says what becomes of its own term. -/
theorem setTerm_says (hctx : ctx.Distinct) {key : String} {v : Value}
    (h : setTerm resolve ctx (key, v) = .ok ctx') (hkey : Iri.isKeyword key = false) :
    ctx'.get? key = entryFor resolve key (ctx.get? key) (some v) := by
  by_cases hnull : v = .null
  · subst hnull
    rw [setTerm, if_neg (by simp [hkey])] at h
    cases h
    exact get?_erase_self hctx key
  · obtain ⟨d, hd, hget⟩ := (setTerm_spec h).2.2 hkey hnull
    rw [hget, entryFor_of_ne_null hnull, hd, Except.toOption]

/-- The members of an object say, each of its own term, what becomes of the terms. -/
theorem foldlM_setTerm_says (hkeys : members.keys.Nodup) (hctx : ctx.Distinct)
    (h : members.foldlM (setTerm resolve) ctx = .ok ctx') :
    ctx'.vocab = ctx.vocab ∧ ctx'.base = ctx.base ∧
      ∀ term, Iri.isKeyword term = false →
        ctx'.get? term = entryFor resolve term (ctx.get? term) (Assoc.get? members term) := by
  induction members generalizing ctx with
  | nil =>
      cases h
      exact ⟨rfl, rfl, fun _ _ => rfl⟩
  | cons member rest ih =>
      obtain ⟨key, v⟩ := member
      obtain ⟨hkey, hrest⟩ := List.nodup_cons.mp hkeys
      rw [List.foldlM_cons] at h
      cases hset : setTerm resolve ctx (key, v) with
      | error x => simp [hset, bind, Except.bind] at h
      | ok middle =>
          simp only [hset, bind, Except.bind] at h
          obtain ⟨hvocab, hbase⟩ := setTerm_frame hset
          obtain ⟨hvocab', hbase', hterms⟩ := ih hrest (kept_distinct.setTerm hctx hset) h
          refine ⟨hvocab'.trans hvocab, hbase'.trans hbase, fun term hterm => ?_⟩
          rw [hterms term hterm]
          by_cases hname : key = term
          · subst hname
            -- No later member says anything of this term.
            have hnone : Assoc.get? rest key = none := Assoc.get?_eq_none_iff.mpr hkey
            rw [hnone, entryFor, setTerm_says hctx hset hterm, Assoc.get?, if_pos rfl]
          · rw [(setTerm_spec hset).1 term hname, Assoc.get?, if_neg hname]

/-- **What an object leaves** of a context is what it says key by key. -/
theorem parse_says (h : Unscoped members) (hbase : base.Distinct)
    (hread : parse base (.obj members) = .ok ctx) :
    ctx.vocab = vocabOf base members ∧ ctx.base = baseOf base members ∧
      ∀ term, ctx.get? term = entryOf base members term := by
  rw [h.parse_eq, parseTerms] at hread
  cases hkeywords : members.foldlM setKeyword base with
  | error x => simp [hkeywords, bind, Except.bind] at hread
  | ok opened =>
      simp only [hkeywords, bind, Except.bind] at hread
      obtain ⟨hterms, hvocab⟩ := foldlM_setKeyword h.keys hkeywords
      have hopened : opened.Distinct := by rwa [Distinct, hterms]
      obtain ⟨hvocab', hbase', hread'⟩ := foldlM_setTerm_says h.keys hopened hread
      refine ⟨hvocab'.trans hvocab,
        hbase'.trans (foldlM_setKeyword_base h.keys hkeywords), fun term => ?_⟩
      have hbeneath : opened.get? term = base.get? term := by rw [get?, get?, hterms]
      unfold entryOf
      split
      next hterm => rw [(foldlM_setTerm h.keys hread).1 term (.inr hterm), hbeneath]
      next hterm => rw [hread' term (by simpa using hterm), hvocab, hbeneath]

/-! ## Members in another order -/

section Lookups

variable {v w : Option Value} (h : Option.Rel Reordered v w)

include h

/-- Reordered values have the same text, if any. -/
theorem bind_asText?_reordered : v.bind Value.asText? = w.bind Value.asText? := by
  cases h with
  | none => rfl
  | some h => exact h.asText?_eq

/-- Reordered values are read backwards alike. -/
theorem reverseOf_reordered (resolve : String → Except ContextError String) :
    reverseOf resolve v = reverseOf resolve w := by
  cases h with
  | none => rfl
  | some h => cases h <;> rfl

theorem iriOf_reordered (resolve : String → Except ContextError String) (term : String)
    (reverse : Option String) : iriOf resolve term reverse v = iriOf resolve term reverse w := by
  cases h with
  | none => rfl
  | some h => cases h <;> rfl

theorem coercionOf_reordered (resolve : String → Except ContextError String) :
    coercionOf resolve v = coercionOf resolve w := by
  cases h with
  | none => rfl
  | some h => cases h <;> rfl

theorem containerOf?_reordered : containerOf? v = containerOf? w := by
  cases h with
  | none => rfl
  | some h =>
      cases h with
      | same | obj => rfl
      | arr items => rw [containerOf?, containerOf?, items.texts_eq]

/-- A vocabulary is one in every order. -/
theorem isVocabulary_reordered : IsVocabulary v ↔ IsVocabulary w := by
  cases h with
  | none => exact Iff.rfl
  | some h => cases h <;> exact Iff.rfl

end Lookups

/-- A definition with its members in another order defines the same. -/
theorem define_reordered {v w : Value} (h : Reordered v w)
    (hkeys : ∀ entry, v = .obj entry → (Assoc.keys entry).Nodup) (term : String) :
    define resolve term v = define resolve term w := by
  cases h with
  | same | arr => rfl
  | @obj entry middle others values order =>
      have hfound := (Reordered.obj values order).found (hkeys entry rfl)
      rw [define, define, reverseOf_reordered (hfound "@reverse"),
        coercionOf_reordered (hfound "@type"), containerOf?_reordered (hfound "@container")]
      simp only [iriOf_reordered (hfound "@id")]

/-- A reordered member gives its term the same definition. -/
theorem entryFor_reordered {v w : Option Value} (h : Option.Rel Reordered v w)
    (hkeys : ∀ entry, v = some (.obj entry) → (Assoc.keys entry).Nodup) (term : String)
    (beneath : Option Definition) :
    entryFor resolve term beneath v = entryFor resolve term beneath w := by
  cases h with
  | none => rfl
  | @some v w h =>
      by_cases hv : v = .null
      · rw [hv, h.eq_null_iff.mp hv]
      · rw [entryFor_of_ne_null hv, entryFor_of_ne_null (mt h.eq_null_iff.mpr hv),
          define_reordered h fun entry hentry => hkeys entry (hentry ▸ rfl)]

theorem isEntry_reordered {v w : Option Value} (h : Option.Rel Reordered v w)
    (hkeys : ∀ entry, v = some (.obj entry) → (Assoc.keys entry).Nodup) (term : String) :
    IsEntry resolve term v ↔ IsEntry resolve term w := by
  cases h with
  | none => exact Iff.rfl
  | @some v w h =>
      by_cases hv : v = .null
      · rw [hv, h.eq_null_iff.mp hv]
      · rw [isEntry_of_ne_null hv, isEntry_of_ne_null (mt h.eq_null_iff.mpr hv),
          define_reordered h fun entry hentry => hkeys entry (hentry ▸ rfl)]

section Objects

variable (h : Unscoped members) (horder : Reordered (.obj members) (.obj others))

include h

/-- A definition that is found has one member for each key. -/
theorem Unscoped.found_keys {key : String} {entry : Object}
    (hentry : Assoc.get? members key = some (.obj entry)) : (Assoc.keys entry).Nodup :=
  h.entry_keys (Assoc.mem_of_get? hentry)

include horder

/-- Reordered objects define a name alike. -/
theorem localTarget?_reordered (name : String) :
    localTarget? members name = localTarget? others name := by
  have hkeys : ∀ entry, Assoc.get? members name = some (.obj entry) →
      (Assoc.keys entry).Nodup := fun _ => h.found_keys
  have hfound := horder.found h.keys name
  unfold localTarget?
  generalize Assoc.get? members name = v, Assoc.get? others name = w at hkeys hfound
  cases hfound with
  | none => rfl
  | some hv =>
      cases hv with
      | same | arr => rfl
      | obj values order =>
          exact bind_asText?_reordered
            ((Reordered.obj values order).found (hkeys _ rfl) "@id")

/-- Reordered objects lead a name to the same IRI. -/
theorem resolve_reordered (base : Context) (vocab : Option String) :
    Context.resolve members base vocab = Context.resolve others base vocab := by
  have hfollow : ∀ fuel seen value, follow members base vocab fuel seen value =
      follow others base vocab fuel seen value := by
    intro fuel
    induction fuel with
    | zero => exact fun _ _ => rfl
    | succ fuel ih =>
        intro seen value
        unfold follow
        simp only [localTarget?_reordered h horder, ih]
  have hlength : members.length = others.length := by
    simpa [Assoc.keys] using horder.keys_perm.length_eq
  funext value
  rw [Context.resolve, Context.resolve, hfollow, hlength]

/-- Reordered objects set the same vocabulary. -/
theorem vocabOf_reordered (base : Context) : vocabOf base members = vocabOf base others := by
  have hfound := horder.found h.keys "@vocab"
  unfold vocabOf
  generalize Assoc.get? members "@vocab" = v, Assoc.get? others "@vocab" = w at hfound
  cases hfound with
  | none => rfl
  | some hv => exact hv.asText?_eq

theorem baseOf_reordered (base : Context) : baseOf base members = baseOf base others := by
  have hfound := horder.found h.keys "@base"
  unfold baseOf
  generalize Assoc.get? members "@base" = v, Assoc.get? others "@base" = w at hfound
  cases hfound with
  | none => rfl
  | some hv => exact hv.asText?_eq

/-- Reordered objects say the same of a term. -/
theorem entryOf_reordered (base : Context) (term : String) :
    entryOf base members term = entryOf base others term := by
  unfold entryOf
  rw [entryFor_reordered (horder.found h.keys term) fun _ => h.found_keys,
    resolve_reordered h horder, vocabOf_reordered h horder]

/-- An object has no context within it in every order. -/
theorem Unscoped.reordered : Unscoped others where
  distinct := by
    intro keys hkeys
    obtain ⟨keys', hkeys', hperm⟩ := horder.keysWithin_perm keys hkeys
    exact hperm.nodup_iff.mp (h.distinct keys' hkeys')
  unscoped := by
    intro keys hkeys
    obtain ⟨keys', hkeys', hperm⟩ := horder.keysWithin_perm keys hkeys
    exact fun hmem => h.unscoped keys' hkeys' (hperm.mem_iff.mpr hmem)

/-- An object is accepted in every order or in none. -/
theorem accepted_reordered (base : Context) : Accepted base members ↔ Accepted base others := by
  have hvocab := isVocabulary_reordered (horder.found h.keys "@vocab")
  have hentry : ∀ term, IsEntry (Context.resolve others base (vocabOf base others)) term
      (Assoc.get? members term) ↔ IsEntry (Context.resolve others base (vocabOf base others)) term
        (Assoc.get? others term) :=
    fun term => isEntry_reordered (horder.found h.keys term) (fun _ => h.found_keys) term
  constructor
  · rintro ⟨hset, hentries⟩
    rw [resolve_reordered h horder, vocabOf_reordered h horder] at hentries
    exact ⟨hvocab.mp hset, fun term hterm => (hentry term).mp (hentries term hterm)⟩
  · rintro ⟨hset, hentries⟩
    refine ⟨hvocab.mpr hset, fun term hterm => ?_⟩
    rw [resolve_reordered h horder, vocabOf_reordered h horder]
    exact (hentry term).mpr (hentries term hterm)

end Objects

/-- Of a term that it does not mention an object says nothing. -/
theorem entryOf_unmentioned {term : String} (h : term ∉ members.keys) :
    entryOf base members term = base.get? term := by
  unfold entryOf
  rw [Assoc.get?_eq_none_iff.mpr h]
  split <;> rfl

/-- **The order of keys is irrelevant.**  Whatever context they are read over, two objects
without a context within them that differ in the order of members only, their own or those of
the definitions in them, are both rejected or leave the same vocabulary, the same base and the
same definition of every term; terms that are not mentioned keep theirs. -/
theorem parse_reordered (h : Unscoped members)
    (horder : Reordered (.obj members) (.obj others)) (hbase : base.Distinct) :
    match parse base (.obj members), parse base (.obj others) with
    | .ok ctx, .ok ctx' =>
      ctx.vocab = ctx'.vocab ∧ ctx.base = ctx'.base ∧ (∀ term, ctx.get? term = ctx'.get? term) ∧
        ∀ term, term ∉ members.keys → ctx.get? term = base.get? term
    | .error _, .error _ => True
    | _, _ => False := by
  have hothers := h.reordered horder
  have haccepted : (∃ ctx, parse base (.obj members) = .ok ctx) ↔
      ∃ ctx, parse base (.obj others) = .ok ctx := by
    rw [exists_parse_iff h, exists_parse_iff hothers, accepted_reordered h horder]
  cases hread : parse base (.obj members) with
  | error x =>
      cases hread' : parse base (.obj others) with
      | error x' => trivial
      | ok ctx' => simp [hread, hread'] at haccepted
  | ok ctx =>
      cases hread' : parse base (.obj others) with
      | error x' => simp [hread, hread'] at haccepted
      | ok ctx' =>
          obtain ⟨hvocab, hset, hterms⟩ := parse_says h hbase hread
          obtain ⟨hvocab', hset', hterms'⟩ := parse_says hothers hbase hread'
          refine ⟨?_, ?_, fun term => ?_, fun term hterm => ?_⟩
          · rw [hvocab, hvocab', vocabOf_reordered h horder]
          · rw [hset, hset', baseOf_reordered h horder]
          · rw [hterms, hterms', entryOf_reordered h horder]
          · rw [hterms, entryOf_unmentioned hterm]

/-- A museum's terms. -/
def museum : Context :=
  ⟨none, none, [("ex", .ofIri "http://example.org/"), ("old", .ofIri "http://example.org/old")]⟩

/-- Names that are defined through a later one, a term that is removed, and a vocabulary
behind them all. -/
def exhibits : Object :=
  [("title", .str "dc:title"), ("old", .null), ("dc", .str "http://purl.org/dc/terms/"),
    ("creator", .obj [("@id", .str "dc:creator"), ("@type", .str "@id")]),
    ("@vocab", .str "http://schema.org/")]

/-- The same from behind. -/
def exhibitsBackwards : Object :=
  [("@vocab", .str "http://schema.org/"),
    ("creator", .obj [("@type", .str "@id"), ("@id", .str "dc:creator")]),
    ("dc", .str "http://purl.org/dc/terms/"), ("old", .null), ("title", .str "dc:title")]

/-- The exhibits backwards are the exhibits in another order. -/
theorem exhibits_reordered : Reordered (.obj exhibits) (.obj exhibitsBackwards) :=
  .obj (.cons (.same _) (.cons (.same _) (.cons (.same _)
    (.cons (.of_perm (List.reverse_perm _).symm) (.cons (.same _) .nil)))))
    (List.reverse_perm _).symm

/-- The exhibits are read over the museum's terms from both sides, to the same terms. -/
theorem parse_reordered_exhibits :
    ∃ ctx ctx', parse museum (.obj exhibits) = .ok ctx ∧
      parse museum (.obj exhibitsBackwards) = .ok ctx' ∧
      (∀ term, ctx.get? term = ctx'.get? term) ∧ ctx.get? "ex" = museum.get? "ex" ∧
      ctx.iriOf? "title" = some "http://purl.org/dc/terms/title" ∧
      ctx.contains "old" = false := by
  have hunscoped : Unscoped exhibits := ⟨by decide +kernel, by decide +kernel⟩
  have hdistinct : museum.Distinct := by
    unfold Distinct
    decide +kernel
  have hsame := parse_reordered hunscoped exhibits_reordered hdistinct
  have htitle : (parse museum (.obj exhibits)).toOption.map (·.iriOf? "title") =
      some (some "http://purl.org/dc/terms/title") := by decide +kernel
  have hold : (parse museum (.obj exhibits)).toOption.map (·.contains "old") = some false := by
    decide +kernel
  cases hread : parse museum (.obj exhibits) with
  | error x => simp [hread, Except.toOption] at hold
  | ok ctx =>
      cases hread' : parse museum (.obj exhibitsBackwards) with
      | error x' => simp [hread, hread'] at hsame
      | ok ctx' =>
          simp only [hread, hread', Except.toOption, Option.map_some, Option.some.injEq]
            at hsame htitle hold
          obtain ⟨-, -, hterms, hbeneath⟩ := hsame
          exact ⟨ctx, ctx', rfl, rfl, hterms, hbeneath "ex" (by decide), htitle, hold⟩

end ObjectGraph.Context
