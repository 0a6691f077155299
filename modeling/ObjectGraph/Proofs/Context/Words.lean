import ObjectGraph.Context.Parse

/-!
# Terms are words

No term of a context is a keyword, and none is defined twice: reading defines no term under
a keyword and puts a definition in the place of the one before (`Read.words`,
`Read.distinct`), be it a member, a context that is wrapped or one that a term carries.
Both are facts about terms that every step of a reading keeps (`Kept`), and so a whole
reading does (`Kept.parse`).
-/

namespace ObjectGraph

open Json (Value Object)

/-- What a reading yields is its result. -/
theorem eq_ok_of_mem_toOption {ε α : Type} {result : Except ε α} {a : α}
    (h : a ∈ result.toOption) : result = .ok a := by
  cases result with
  | error x => cases h
  | ok b => exact congrArg Except.ok (Option.some.inj h)

/-- Erasing a key enters nothing. -/
theorem Assoc.erase_subset {α : Type} (m : Assoc α) (key : String) : m.erase key ⊆ m := by
  induction m with
  | nil => exact List.Subset.refl _
  | cons e rest ih =>
      unfold erase
      split
      · exact List.subset_cons_self _ _
      · exact List.cons_subset_cons _ ih

namespace Context

/-- No term is a keyword. -/
def Words (ctx : Context) : Prop :=
  ∀ entry ∈ ctx.terms, Iri.isKeyword entry.1 = false

/-- Each term has one definition. -/
def Distinct (ctx : Context) : Prop :=
  (Assoc.keys ctx.terms).Nodup

variable {base ctx ctx' : Context} {members : Object}

/-- The contexts that are read: the one without names, and each that is read over another. -/
inductive Read : Context → Prop
  | empty : Read .empty
  | above {base ctx : Context} {v : Value} (hbase : Read base) (hparse : parse base v = .ok ctx) :
      Read ctx

/-- A fact about terms that what a reading does to them keeps. -/
structure Kept (holds : Assoc Definition → Prop) : Prop where
  nil : holds []
  insert : ∀ {terms term}, holds terms → Iri.isKeyword term = false → ∀ d,
    holds (terms.insert term d)
  erase : ∀ {terms}, holds terms → ∀ term, holds (terms.erase term)
  modify : ∀ {terms}, holds terms → ∀ term f, holds (terms.modify term f)

namespace Kept

variable {holds : Assoc Definition → Prop}

/-- What every step of a reading keeps. -/
theorem foldlM {step : Context → String × Value → Except ContextError Context}
    (hstep : ∀ ctx member ctx', holds ctx.terms → step ctx member = .ok ctx' → holds ctx'.terms)
    (h : holds ctx.terms) (hread : members.foldlM step ctx = .ok ctx') : holds ctx'.terms := by
  induction members generalizing ctx with
  | nil =>
      cases hread
      exact h
  | cons member rest ih =>
      rw [List.foldlM_cons] at hread
      cases hnext : step ctx member with
      | error x => simp [hnext, bind, Except.bind] at hread
      | ok next =>
          simp only [hnext, bind, Except.bind] at hread
          exact ih (hstep ctx member next h hnext) hread

/-- A keyword leaves the terms alone. -/
theorem setKeyword {member : String × Value} (h : holds ctx.terms)
    (hset : Context.setKeyword ctx member = .ok ctx') : holds ctx'.terms := by
  unfold Context.setKeyword at hset
  split at hset
  all_goals
    cases hset
  all_goals exact h

/-- A term is defined or removed. -/
theorem setTerm (kept : Kept holds) {resolve : String → Except ContextError String}
    {member : String × Value} (h : holds ctx.terms)
    (hset : Context.setTerm resolve ctx member = .ok ctx') : holds ctx'.terms := by
  unfold Context.setTerm at hset
  split at hset
  next =>
    cases hset
    exact h
  next hword =>
    split at hset
    next =>
      cases hset
      exact kept.erase h member.1
    next =>
      cases hd : define resolve member.1 member.2 with
      | error x => simp [hd, bind, Except.bind] at hset
      | ok d =>
          simp only [hd, bind, Except.bind, Except.ok.injEq] at hset
          exact hset ▸ kept.insert h (by simpa using hword) d

/-- What is kept is kept when all terms of an object are read. -/
theorem parseTerms (kept : Kept holds) (h : holds base.terms)
    (hread : Context.parseTerms base members = .ok ctx) : holds ctx.terms := by
  unfold Context.parseTerms at hread
  cases hset : members.foldlM Context.setKeyword base with
  | error x => simp [hset, bind, Except.bind] at hread
  | ok middle =>
      simp only [hset, bind, Except.bind] at hread
      exact foldlM (fun _ _ _ h hset => kept.setTerm h hset)
        (foldlM (fun _ _ _ h hset => setKeyword h hset) h hset) hread

mutual

/-- **A whole reading** keeps what its steps keep. -/
theorem parse (kept : Kept holds) : (v : Value) → ∀ {base ctx : Context}, holds base.terms →
    Context.parse base v = .ok ctx → holds ctx.terms
  | .null, _, _, _, hread => by
      cases hread
      exact kept.nil
  | .obj members, base, ctx, h, hread => by
      unfold Context.parse at hread
      split at hread
      next result hwrapped => exact kept.parseWrapped members h (hread ▸ hwrapped)
      next =>
        cases hterms : Context.parseTerms base members with
        | error x => simp [hterms, bind, Except.bind] at hread
        | ok middle =>
            simp only [hterms, bind, Except.bind] at hread
            exact kept.parseScopes members (kept.parseTerms h hterms) hread
  | .arr items, _, _, h, hread => by
      unfold Context.parse at hread
      exact kept.parseAll items h hread
  | .bool _, _, _, _, hread | .num _, _, _, _, hread | .str _, _, _, _, hread => by
      unfold Context.parse at hread
      cases hread

/-- It is kept when a wrapped context is read. -/
theorem parseWrapped (kept : Kept holds) : (members : List (String × Value)) →
    ∀ {base ctx : Context}, holds base.terms →
    Context.parseWrapped base members = some (.ok ctx) → holds ctx.terms
  | [], _, _, _, hread => by
      unfold Context.parseWrapped at hread
      cases hread
  | (_, v) :: rest, _, _, h, hread => by
      unfold Context.parseWrapped at hread
      split at hread
      next => exact kept.parse v h (Option.some.inj hread)
      next => exact kept.parseWrapped rest h hread

/-- It is kept when contexts are read one after the other. -/
theorem parseAll (kept : Kept holds) : (items : List Value) → ∀ {base ctx : Context},
    holds base.terms → Context.parseAll base items = .ok ctx → holds ctx.terms
  | [], _, _, h, hread => by
      unfold Context.parseAll at hread
      cases hread
      exact h
  | v :: rest, base, _, h, hread => by
      unfold Context.parseAll at hread
      cases hv : Context.parse base v with
      | error x => simp [hv, bind, Except.bind] at hread
      | ok middle =>
          simp only [hv, bind, Except.bind] at hread
          exact kept.parseAll rest (kept.parse v h hv) hread

/-- It is kept when the contexts of terms are read. -/
theorem parseScopes (kept : Kept holds) : (members : List (String × Value)) →
    ∀ {ctx ctx' : Context}, holds ctx.terms →
    Context.parseScopes ctx members = .ok ctx' → holds ctx'.terms
  | [], _, _, h, hread => by
      unfold Context.parseScopes at hread
      cases hread
      exact h
  | (term, .obj entry) :: rest, _, _, h, hread => by
      unfold Context.parseScopes at hread
      split at hread
      next result hwrapped =>
        cases hresult : result with
        | error x => simp [hresult, bind, Except.bind] at hread
        | ok scope =>
            simp only [hresult, bind, Except.bind] at hread
            exact kept.parseScopes rest (kept.modify h term _) hread
      next => exact kept.parseScopes rest h hread
  | (_, .null) :: rest, _, _, h, hread | (_, .bool _) :: rest, _, _, h, hread
  | (_, .num _) :: rest, _, _, h, hread | (_, .str _) :: rest, _, _, h, hread
  | (_, .arr _) :: rest, _, _, h, hread => by
      unfold Context.parseScopes at hread
      exact kept.parseScopes rest h hread

end

/-- What is kept holds of every context that is read. -/
theorem of_read (kept : Kept holds) (h : ctx.Read) : holds ctx.terms := by
  induction h with
  | empty => exact kept.nil
  | above _ hparse ih => exact kept.parse _ ih hparse

end Kept

/-! ## Words -/

/-- No keyword becomes a term. -/
theorem kept_words :
    Kept fun terms : Assoc Definition => ∀ entry ∈ terms, Iri.isKeyword entry.1 = false where
  nil := by simp
  insert := by
    intro terms term h hterm d entry hentry
    rcases Assoc.mem_insert hentry with hold | rfl
    · exact h entry hold
    · exact hterm
  erase := fun h term entry hentry => h entry (Assoc.erase_subset _ term hentry)
  modify := by
    -- Only terms that are there are changed.
    intro terms h term f entry hentry
    unfold Assoc.modify at hentry
    split at hentry
    next => exact h entry hentry
    next d hd =>
      rcases Assoc.mem_insert hentry with hold | rfl
      · exact h entry hold
      · exact h (term, d) (Assoc.mem_of_get? hd)

/-- **No context that is read** has a keyword for a term. -/
theorem Read.words (h : ctx.Read) : ctx.Words :=
  kept_words.of_read h

/-! ## Terms that are defined once -/

/-- No term gets a second definition. -/
theorem kept_distinct : Kept fun terms => (Assoc.keys terms).Nodup where
  nil := by simp [Assoc.keys]
  insert := fun h _ d => Assoc.nodup_keys_insert h _ d
  erase := by
    intro terms h term
    rw [Assoc.erase_eq_filter h]
    exact h.sublist (List.filter_sublist.map Prod.fst)
  modify := by
    intro terms h term f
    unfold Assoc.modify
    split
    next => exact h
    next d _ => exact Assoc.nodup_keys_insert h term (f d)

/-- **Each context that is read** defines a term once. -/
theorem Read.distinct (h : ctx.Read) : ctx.Distinct :=
  kept_distinct.of_read h

end Context

end ObjectGraph
