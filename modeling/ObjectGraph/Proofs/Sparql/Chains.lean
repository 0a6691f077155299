import ObjectGraph.Proofs.Sparql.Scanning

/-!
# Operators that do not chain

The printer gives an operand parentheses by its level only.  So it takes a comparison for an
operator that may stand on the left of another one, and a negation for an operand of `!`, and
the texts of these do not derive from the grammar (`chains_not_derived`).  They are all that
is wrong: the text of an expression is only scanned if the expression is grammatical
(`Expression.sound`), hence derives if and only if it is (`expression_derives_iff`).
-/

namespace ObjectGraph.Sparql

variable {row own own' : List Token} {rows : List (List Token)} {ts us : List Token} {t : Token}

/-! ## What is scanned is grammatical -/

namespace Admits

/-- What can be taken can be taken up to any point. -/
theorem front (h : Admits rows (ts ++ us)) : Admits rows ts := by
  unfold Admits at h ⊢
  rw [scan_append] at h
  exact Option.isSome_of_isSome_bind h

/-- Behind what is taken all else can be taken. -/
theorem behind (h : Admits (row :: rows) (ts ++ us)) (hfront : Passes row ts own) :
    Admits ((own ++ row) :: rows) us := by
  unfold Admits at h ⊢
  rwa [scan_append, hfront, Option.bind_some] at h

/-- Behind one token all else can be taken. -/
theorem next (h : Admits (row :: rows) (t :: ts)) (ht : Passes row [t] [t]) :
    Admits ((t :: row) :: rows) ts :=
  @behind row [t] rows [t] ts h ht

/-- A mute token is only noted. -/
theorem noted (h : Admits (row :: rows) (t :: ts)) (ht : t.isMute = true) :
    Admits ((t :: row) :: rows) ts :=
  h.next ((Passes.nil _).note ht)

/-- What stands in parentheses is taken on a row of its own. -/
theorem inside (h : Admits (row :: rows) (parenthesized ts)) : Admits ([] :: row :: rows) ts := by
  have hopen : take (row :: rows) (.word "(") = some ([] :: row :: rows) := rfl
  unfold Admits at h
  rw [parenthesized, List.cons_append, scan_cons, hopen, Option.bind_some] at h
  exact front h

/-- Parentheses are taken only if what is in them may stand there. -/
theorem mayClose (h : Admits (row :: rows) (parenthesized ts)) (hinside : Passes [] ts own) :
    mayClose row.head? own = true := by
  have hopen : take (row :: rows) (.word "(") = some ([] :: row :: rows) := rfl
  unfold Admits at h
  rw [parenthesized, List.cons_append, scan_cons, hopen, Option.bind_some, scan_append,
    hinside] at h
  by_contra hclose
  simp [scan, take, leftBrace, rightBrace, hclose] at h

/-- What stands in braces is taken on a row of its own. -/
theorem group (h : Admits (row :: rows) (block ts)) : Admits ([] :: row :: rows) ts := by
  have hopen : take (row :: rows) leftBrace = some ([] :: row :: rows) := rfl
  unfold Admits at h
  rw [block, List.cons_append, scan_cons, hopen, Option.bind_some] at h
  exact front h

/-- A word is taken only if it may come next. -/
theorem mayFollow {w : String} (hw : w ∉ ["(", ")", "\x7b", "\x7d"])
    (h : Admits (row :: rows) (.word w :: ts)) : mayFollow row (.word w) = true := by
  unfold Admits at h
  rw [scan_cons] at h
  by_contra hfollow
  simp_all [take, leftBrace, rightBrace]

/-- An operator is in place, a comparison only where there is none before. -/
theorem operator {op : BinaryOp} (h : Admits (row :: rows) (.word op.sign :: ts)) :
    Passes row [.word op.sign] [.word op.sign] ∧
      (op.isComparison = true → compared row = false) := by
  have hfollow := h.mayFollow (by cases op <;> decide)
  have hcompared : op.isComparison = true → compared row = false := by
    intro hop
    by_contra hrow
    simp_all [Sparql.mayFollow, op.compares_sign]
  exact ⟨.one op.sign_isPlain.1 (op.compares_sign ▸ hcompared), hcompared⟩

/-- No negation is taken behind another one. -/
theorem negation (h : Admits (row :: rows) (.word "!" :: ts)) : row.head? ≠ some (.word "!") := by
  have hfollow := h.mayFollow (by decide)
  intro hhead
  simp [Sparql.mayFollow, hhead] at hfollow

/-- No body is taken behind a selection of nothing. -/
theorem body (h : Admits (row :: rows) (.word "WHERE" :: ts)) :
    row.head? ≠ some (.word "SELECT") ∧ row.head? ≠ some (.word "DISTINCT") := by
  have hfollow := h.mayFollow (by decide)
  constructor <;>
  · intro hhead
    simp [Sparql.mayFollow, hhead] at hfollow

end Admits

/-- What the text of an expression adds to a row. -/
structure Expression.Leaves (e : Expression) (row own : List Token) : Prop where
  ne_nil : own ≠ []
  no_comma : .word "," ∉ own
  quiet : e.isBinary = false → Quiet own
  compared : e.isComparison = true → compared (own ++ row) = true
  var : ∀ v, own = [.variable v] → e = .var v

/-- Tokens that neither compare nor end an operand leave nothing to look out for. -/
theorem Expression.Leaves.of_quiet {e : Expression} (hne : own ≠ []) (hquiet : Quiet own)
    (he : e.isComparison = false) (hvar : ∀ v, own = [.variable v] → e = .var v) :
    e.Leaves row own where
  ne_nil := hne
  no_comma := hquiet.not_mem_comma
  quiet _ := hquiet
  compared hcomparison := by simp [he] at hcomparison
  var := hvar

/-- Words in front of a group. -/
theorem Expression.Leaves.braced {e : Expression} (hts : ∀ t ∈ ts, t.isMute = true)
    (he : e.isComparison = false) : e.Leaves row ([rightBrace] ++ ts.reverse) :=
  .of_quiet (by simp) (quiet_brace.append (.of_mute hts)) he (by simp [rightBrace])

/-- The text of an expression is taken only if the expression is grammatical. -/
def Expression.Sound (e : Expression) : Prop :=
  ∀ row rows, Admits (row :: rows) (solid e.tokens) →
    e.IsGrammatical ∧ ∃ own, Passes row (solid e.tokens) own ∧ e.Leaves row own

/-- An expression without operators and brackets. -/
theorem Expression.Sound.of_mute {e : Expression} (hgrammatical : e.IsGrammatical)
    (he : e.isComparison = false) (hne : solid e.tokens ≠ [])
    (hmute : ∀ t ∈ solid e.tokens, t.isMute = true)
    (hvar : ∀ v, solid e.tokens = [.variable v] → e = .var v) : e.Sound := by
  intro row rows _
  refine ⟨hgrammatical, _, .mute hmute row, .of_quiet (by simpa using hne) (.of_mute hmute) he ?_⟩
  intro v hv
  exact hvar v (List.reverse_eq_iff.mp hv)

/-- Parentheses leave only their end. -/
theorem Expression.Sound.operand {e : Expression} (he : e.Sound) {condition : Bool}
    (h : Admits (row :: rows) (solid (parenthesizedIf condition e.tokens))) :
    e.IsGrammatical ∧ ∃ own, Passes row (solid (parenthesizedIf condition e.tokens)) own ∧
      own ≠ [] ∧ .word "," ∉ own ∧ (condition = true ∨ e.isBinary = false → Quiet own) ∧
      (condition = false → e.isComparison = true → compared (own ++ row) = true) := by
  cases condition with
  | false =>
      obtain ⟨hgrammatical, own, hpasses, hown⟩ := he row rows h
      refine ⟨hgrammatical, own, hpasses, hown.ne_nil, hown.no_comma, ?_, fun _ => hown.compared⟩
      rintro (hfalse | hbinary)
      · cases hfalse
      · exact hown.quiet hbinary
  | true =>
      rw [parenthesizedIf, if_pos rfl, solid_parenthesized] at h ⊢
      obtain ⟨hgrammatical, own, hpasses, -⟩ := he [] (row :: rows) h.inside
      exact ⟨hgrammatical, _, hpasses.parenthesized (h.mayClose hpasses), by simp,
        quiet_parenthesis.not_mem_comma, fun _ => quiet_parenthesis, by simp⟩

/-- The operand on the right of a comparison is in parentheses or no operator. -/
theorem Expression.isBinary_of_needsParentheses {e : Expression} {op : BinaryOp}
    (hop : op.isComparison = true) :
    e.needsParentheses op true = true ∨ e.isBinary = false := by
  cases e with
  | binary inner l r =>
      have hinner : inner.precedence < 4 := inner.precedence_lt_tight
      rw [BinaryOp.isComparison_iff] at hop
      refine .inl ?_
      simp only [needsParentheses, hop, Bool.true_and, Bool.or_eq_true, decide_eq_true_eq]
      omega
  | var | literal | iri | not | call | exist | notExist => exact .inr rfl

/-- The operand on the left of a comparison is in none if it is one. -/
theorem Expression.needsParentheses_of_isComparison {e : Expression} {op : BinaryOp}
    (hop : op.isComparison = true) (he : e.isComparison = true) :
    e.needsParentheses op false = false := by
  cases e with
  | binary inner l r =>
      have hinner : inner.precedence = 3 := BinaryOp.isComparison_iff.mp he
      rw [BinaryOp.isComparison_iff] at hop
      simp [needsParentheses, hop, hinner]
  | var | literal | iri | not | call | exist | notExist => rfl

/-- A binary expression is sound if its operands are. -/
theorem Expression.Sound.binary {op : BinaryOp} {l r : Expression} (hl : l.Sound) (hr : r.Sound) :
    (Expression.binary op l r).Sound := by
  intro row rows h
  have htokens : solid (Expression.binary op l r).tokens =
      solid (parenthesizedIf (l.needsParentheses op false) l.tokens) ++ .word op.sign ::
        solid (parenthesizedIf (r.needsParentheses op true) r.tokens) := by
    simp [Expression.tokens]
  rw [htokens] at h ⊢
  obtain ⟨hgrammatical, own, hleft, hne, hcomma, -, hcompared⟩ := hl.operand h.front
  have hrest := h.behind hleft
  obtain ⟨hsign, hnone⟩ := hrest.operator
  obtain ⟨hgrammatical', own', hright, hne', hcomma', hquiet', -⟩ :=
    hr.operand (hrest.next hsign)
  refine ⟨⟨hgrammatical, hgrammatical', ?_⟩, _, hleft.append (hsign.append hright), ?_⟩
  · rintro ⟨hop, hchain⟩
    have hbare := Expression.needsParentheses_of_isComparison hop hchain
    rw [hcompared hbare hchain] at hnone
    cases hnone hop
  · constructor
    · simp
    · simp [hcomma, hcomma', op.sign_isPlain.2.2.2.symm]
    · nofun
    · intro hop
      have hquiet := hquiet' (Expression.isBinary_of_needsParentheses hop)
      rw [List.append_assoc, List.append_assoc, hquiet.compared]
      exact BinaryOp.compared_sign hop _
    · intro v hv
      have hmem : Token.word op.sign ∈ [Token.variable v] := hv ▸ by simp
      simp at hmem

/-- The text of a negation is `!` and its operand, in parentheses if that is binary. -/
theorem Expression.solid_not (e : Expression) :
    solid (Expression.not e).tokens = .word "!" :: solid (parenthesizedIf e.isBinary e.tokens) := by
  simp [Expression.tokens]

/-- A negation is sound if its operand is. -/
theorem Expression.Sound.not {e : Expression} (he : e.Sound) : (Expression.not e).Sound := by
  intro row rows h
  rw [Expression.solid_not] at h ⊢
  have hsign := Passes.negation h.negation
  have hrest := h.next hsign
  obtain ⟨hgrammatical, own, hoperand, hne, hcomma, hquiet, -⟩ := he.operand hrest
  refine ⟨⟨hgrammatical, ?_⟩, _, hsign.append hoperand, ?_⟩
  · cases e with
    | not e =>
        have hsecond : Admits ((.word "!" :: row) :: rows) (solid (Expression.not e).tokens) :=
          hrest
        rw [Expression.solid_not] at hsecond
        exact (hsecond.negation rfl).elim
    | var | literal | iri | binary | call | exist | notExist => rfl
  · constructor
    · simp
    · simp [hcomma]
    · intro _
      refine (hquiet ?_).append ?_
      · cases e.isBinary <;> simp
      · unfold Quiet
        decide
    · nofun
    · intro v hv
      have hmem : Token.word "!" ∈ [Token.variable v] := hv ▸ by simp
      simp at hmem

/-- What a row of arguments holds. -/
def ArgumentsSound (args : List Expression) : Prop :=
  ∀ row rows,
    Admits (row :: rows) (List.intercalate [.word ","] ((argumentTokens args).map solid)) →
    AreGrammatical args ∧
      ∃ own, Passes row (List.intercalate [.word ","] ((argumentTokens args).map solid)) own ∧
        argumentCount own = args.length ∧ ∀ v, own = [.variable v] → args = [.var v]

/-- A row that a function accepts holds the arguments that it takes. -/
theorem Builtin.fits_of_accepts {f : Builtin} {args : List Expression} (h : f.accepts own = true)
    (hcount : argumentCount own = args.length) (hvar : ∀ v, own = [.variable v] → args = [.var v]) :
    f.fits args := by
  unfold accepts at h
  split at h
  next v => exact ⟨v, hvar v rfl⟩
  next hbound =>
    rw [hcount] at h
    cases f with
    | bound => cases h
    | str | lcase | contains | strStarts | strEnds | regex => exact h

/-- A call is sound if its arguments are. -/
theorem ArgumentsSound.call {f : Builtin} {args : List Expression} (hargs : ArgumentsSound args) :
    (Expression.call f args).Sound := by
  intro row rows h
  have htokens : solid (Expression.call f args).tokens =
      .word f.name ::
        parenthesized (List.intercalate [.word ","] ((argumentTokens args).map solid)) := by
    simp [Expression.tokens, solid_intercalate]
  rw [htokens] at h ⊢
  have hopen := h.noted f.name_isMute
  obtain ⟨hgrammatical, own, hpasses, hcount, hvar⟩ := hargs _ _ hopen.inside
  have hclose := hopen.mayClose hpasses
  have haccepts : f.accepts own = true := by
    simpa [mayClose] using hclose
  exact ⟨⟨Builtin.fits_of_accepts haccepts hcount hvar, hgrammatical⟩, _,
    (hpasses.parenthesized hclose).note f.name_isMute,
    .of_quiet (by simp) (quiet_parenthesis.append (.one f.name_isMute)) rfl (by simp)⟩

/-- Tokens that are taken only if something holds. -/
def Demands (ts : List Token) (holds : Prop) : Prop :=
  ∀ row rows, Admits (row :: rows) ts → holds ∧ ∃ own, Passes row ts own

namespace Demands

variable {holds holds' : Prop}

/-- Mute tokens are always taken. -/
theorem mute (h : ∀ t ∈ ts, t.isMute = true) : Demands ts True :=
  fun row _ _ => ⟨trivial, _, .mute h row⟩

/-- What is taken behind another thing demands what both do. -/
theorem append (h : Demands ts holds) (h' : Demands us holds') :
    Demands (ts ++ us) (holds ∧ holds') := by
  intro row rows hadmits
  obtain ⟨hholds, own, hpasses⟩ := h row rows hadmits.front
  obtain ⟨hholds', own', hpasses'⟩ := h' _ rows (hadmits.behind hpasses)
  exact ⟨⟨hholds, hholds'⟩, _, hpasses.append hpasses'⟩

/-- A mute token in front demands nothing more. -/
theorem note (ht : t.isMute = true) (h : Demands ts holds) : Demands (t :: ts) holds := by
  intro row rows hadmits
  obtain ⟨hholds, own, hpasses⟩ := h _ rows (hadmits.noted ht)
  exact ⟨hholds, _, hpasses.note ht⟩

/-- Parentheses demand what stands in them does. -/
theorem parenthesized (h : Demands ts holds) : Demands (parenthesized ts) holds := by
  intro row rows hadmits
  obtain ⟨hholds, own, hpasses⟩ := h _ _ hadmits.inside
  exact ⟨hholds, _, hpasses.parenthesized (hadmits.mayClose hpasses)⟩

theorem block (h : Demands ts holds) : Demands (block ts) holds := by
  intro row rows hadmits
  obtain ⟨hholds, own, hpasses⟩ := h _ _ hadmits.group
  exact ⟨hholds, _, hpasses.block row⟩

/-- Words in front of a group leave only its end and themselves. -/
theorem braced (h : Demands us holds) (hts : ∀ t ∈ ts, t.isMute = true)
    (hadmits : Admits (row :: rows) (ts ++ Sparql.block us)) :
    holds ∧ Passes row (ts ++ Sparql.block us) ([rightBrace] ++ ts.reverse) := by
  obtain ⟨hholds, own, hpasses⟩ := h _ _ (hadmits.behind (.mute hts row)).group
  exact ⟨hholds, hpasses.braced hts row⟩

end Demands

/-- The text of a sound expression demands that it is grammatical. -/
theorem Expression.Sound.demands {e : Expression} (he : e.Sound) :
    Demands (solid e.tokens) e.IsGrammatical := by
  intro row rows h
  obtain ⟨hgrammatical, own, hpasses, -⟩ := he row rows h
  exact ⟨hgrammatical, own, hpasses⟩

section

variable {g : List Pattern} (hg : Demands (groupSolid g) (GroupIsGrammatical g))

include hg

/-- A test for existence is sound if its group demands to be grammatical. -/
theorem Expression.Sound.of_group {e : Expression} (hts : ∀ t ∈ ts, t.isMute = true)
    (he : e.isComparison = false) (htokens : solid e.tokens = ts ++ block (groupSolid g))
    (hgrammatical : GroupIsGrammatical g → e.IsGrammatical) : e.Sound := by
  intro row rows h
  rw [htokens] at h ⊢
  obtain ⟨hgroup, hpasses⟩ := hg.braced hts h
  exact ⟨hgrammatical hgroup, _, hpasses, .braced hts he⟩

/-- A test for existence is sound. -/
theorem Expression.sound_exist : (Expression.exist g).Sound := by
  have hmute : ∀ t ∈ [Token.word "EXISTS"], t.isMute = true := by decide
  have htokens : solid (Expression.exist g).tokens =
      [.word "EXISTS"] ++ block (groupSolid g) := by
    simp [Expression.tokens, block, groupSolid]
  exact .of_group hg hmute rfl htokens id

theorem Expression.sound_notExist : (Expression.notExist g).Sound := by
  have hmute : ∀ t ∈ [Token.word "NOT", .word "EXISTS"], t.isMute = true := by decide
  have htokens : solid (Expression.notExist g).tokens =
      [.word "NOT", .word "EXISTS"] ++ block (groupSolid g) := by
    simp [Expression.tokens, block, groupSolid]
  exact .of_group hg hmute rfl htokens id

/-- A pattern that may be missing demands a grammatical group. -/
theorem Pattern.demands_optional :
    Demands (solid (Pattern.optional g).tokens) (GroupIsGrammatical g) := by
  have hoptional := hg.block.note (t := .word "OPTIONAL") (by decide)
  simpa [Pattern.tokens, block, groupSolid] using hoptional

theorem Pattern.demands_group :
    Demands (solid (Pattern.group g).tokens) (GroupIsGrammatical g) := by
  simpa [Pattern.tokens, block, groupSolid] using hg.block

theorem Pattern.demands_service (endpoint : String) (silent : Bool) :
    Demands (solid (Pattern.service endpoint silent g).tokens) (GroupIsGrammatical g) := by
  have hiri := hg.block.note (Token.isMute_iri endpoint)
  cases silent with
  | false =>
      have hservice := hiri.note (t := .word "SERVICE") (by decide)
      simpa [Pattern.tokens, block, groupSolid] using hservice
  | true =>
      have hsilent := hiri.note (t := .word "SILENT") (by decide)
      have hservice := hsilent.note (t := .word "SERVICE") (by decide)
      simpa [Pattern.tokens, block, groupSolid] using hservice

end

/-- Triples demand nothing. -/
theorem Pattern.demands_triples (ts : List Triple) :
    Demands (solid (Pattern.triples ts).tokens) True := by
  intro row rows _
  have htriples : TriplesPhrase true (ts.flatMap fun t => solid t.tokens) :=
    triplesPhrase fun _ _ _ => rfl
  refine ⟨trivial, ?_⟩
  simpa [Pattern.tokens, List.flatMap_map] using htriples.passes row

namespace Expression.Sound

variable {e : Expression} (he : e.Sound)

include he

/-- A filter demands a grammatical expression. -/
theorem filter : Demands (solid (Pattern.filter e).tokens) e.IsGrammatical := by
  have hbare := he.demands.note (t := .word "FILTER") (by decide)
  have hparenthesized := he.demands.parenthesized.note (t := .word "FILTER") (by decide)
  cases e with
  | exist | notExist => simpa [Pattern.tokens, Expression.tokens] using hbare
  | var | literal | iri | binary | not | call => simpa [Pattern.tokens] using hparenthesized

/-- An assignment demands a grammatical expression. -/
theorem bind (v : Var) : Demands (solid (Pattern.bind e v).tokens) e.IsGrammatical := by
  have hmute : ∀ t ∈ [Token.word "AS", .variable v], t.isMute = true := by
    simp [show Token.isMute (.word "AS") = true by decide]
  have hbind := (he.demands.append (.mute hmute)).parenthesized.note (t := .word "BIND") (by decide)
  simpa [Pattern.tokens] using hbind

/-- A key of an order demands a grammatical expression. -/
theorem key {descending : Bool} {rest : List OrderCondition}
    (hrest : Demands ((orderTokens rest).flatMap solid) (OrderIsGrammatical rest)) :
    Demands ((orderTokens (⟨e, descending⟩ :: rest)).flatMap solid)
      (e.IsGrammatical ∧ OrderIsGrammatical rest) := by
  have hmute : Token.isMute (.word (if descending then "DESC" else "ASC")) = true := by
    cases descending <;> decide
  simpa [orderTokens] using (he.demands.parenthesized.note hmute).append hrest

end Expression.Sound

/-- An order demands what its keys do. -/
theorem Demands.ordered {holds : Prop} (h : Demands ts holds) : Demands (ordered ts) holds := by
  unfold Sparql.ordered
  split
  next hempty => exact List.isEmpty_iff.mp hempty ▸ h
  next => exact (h.note (by decide)).note (by decide)

/-- A query demands a grammatical body and a grammatical order. -/
theorem Select.demands_of_parts {distinct : Bool} {projection : Option (List Var)}
    {body : List Pattern}
    {orderBy : List OrderCondition} {limit offset : Option Nat}
    (hbody : Demands (groupSolid body) (GroupIsGrammatical body))
    (horder : Demands ((orderTokens orderBy).flatMap solid) (OrderIsGrammatical orderBy)) :
    Demands (solid (Select.mk distinct projection body ⟨orderBy, limit, offset⟩).tokens)
      (projection ≠ some [] ∧ GroupIsGrammatical body ∧ OrderIsGrammatical orderBy) := by
  intro row rows h
  have hhead : ∀ t ∈ solid (headTokens distinct projection), t.isMute = true := by
    have hwords : Token.isMute (.word "SELECT") = true ∧ Token.isMute (.word "DISTINCT") = true ∧
        Token.isMute (.word "*") = true := by decide
    cases projection with
    | none => cases distinct <;> simp [headTokens, hwords]
    | some vs =>
        have hvars : ∀ t ∈ vs.flatMap fun v => [Token.variable v], t.isMute = true := by
          rw [← List.map_eq_flatMap, List.forall_mem_map]
          simp
        cases distinct <;> simpa [headTokens, hwords, List.flatMap_map] using hvars
  have htokens : solid (Select.mk distinct projection body ⟨orderBy, limit, offset⟩).tokens =
      solid (headTokens distinct projection) ++ .word "WHERE" :: (block (groupSolid body) ++
        (ordered ((orderTokens orderBy).flatMap solid) ++
          (cut "LIMIT" limit ++ cut "OFFSET" offset))) := by
    simp [Select.tokens, solid_modifierTokens, block, groupSolid]
  have hcuts := (Demands.mute (cut_mute "LIMIT" (by decide) limit)).append
    (.mute (cut_mute "OFFSET" (by decide) offset))
  rw [htokens] at h ⊢
  have hselected := Passes.mute hhead row
  have hwhere := h.behind hselected
  obtain ⟨hselect, hdistinct⟩ := hwhere.body
  have hgroup := Passes.body hselect hdistinct
  obtain ⟨⟨hgrammatical, hkeys, -⟩, own, hpasses⟩ :=
    (hbody.block.append (horder.ordered.append hcuts)) _ _ (hwhere.next hgroup)
  refine ⟨⟨?_, hgrammatical, hkeys⟩, _, hselected.append (hgroup.append hpasses)⟩
  rintro rfl
  cases distinct
  · simp [headTokens] at hselect
  · simp [headTokens] at hdistinct

mutual

/-- **Only grammatical expressions** are taken. -/
theorem Expression.sound : ∀ e : Expression, e.Sound
  | .var v =>
      .of_mute trivial rfl (by simp [Expression.tokens]) (by simp [Expression.tokens])
        (by simp [Expression.tokens])
  | .iri i =>
      .of_mute trivial rfl (by simp [Expression.tokens]) (by simp [Expression.tokens])
        (by simp [Expression.tokens])
  | .literal l => by
      have htokens : solid (Expression.literal l).tokens = l.tokens := by
        rw [Expression.tokens, Literal.solid_tokens]
      refine .of_mute trivial rfl ?_ (htokens ▸ l.mute) ?_
      all_goals
        rw [htokens]
        cases l <;> simp [Literal.tokens]
  | .binary _ l r => l.sound.binary r.sound
  | .not e => e.sound.not
  | .call _ args => (argumentsSound args).call
  | .exist g => Expression.sound_exist (group_demands g)
  | .notExist g => Expression.sound_notExist (group_demands g)

/-- Arguments are sound, each of them being so. -/
theorem argumentsSound : ∀ args : List Expression, ArgumentsSound args
  | [] => fun row _ _ => ⟨trivial, [], .nil row, rfl, by simp⟩
  | [e] => by
      intro row rows h
      have htokens : List.intercalate [.word ","] ((argumentTokens [e]).map solid) =
          solid e.tokens := by
        simp [argumentTokens, List.intercalate]
      rw [htokens] at h ⊢
      obtain ⟨hgrammatical, own, hpasses, hown⟩ := e.sound row rows h
      refine ⟨⟨hgrammatical, trivial⟩, own, hpasses,
        argumentCount_of_not_mem hown.ne_nil hown.no_comma, fun v hv => ?_⟩
      rw [hown.var v hv]
  | e :: a :: rest => by
      intro row rows h
      have htokens : List.intercalate [.word ","] ((argumentTokens (e :: a :: rest)).map solid) =
          solid e.tokens ++ .word "," ::
            List.intercalate [.word ","] ((argumentTokens (a :: rest)).map solid) := by
        simp [argumentTokens, List.intercalate_cons_cons]
      rw [htokens] at h ⊢
      obtain ⟨hgrammatical, own, hpasses, hown⟩ := e.sound row rows h.front
      have hcomma : Passes (own ++ row) [.word ","] [.word ","] := (Passes.nil _).cons (by decide)
      obtain ⟨hgrammatical', own', hpasses', hcount, -⟩ :=
        argumentsSound (a :: rest) _ rows ((h.behind hpasses).next hcomma)
      have hne' : own' ≠ [] := by
        rintro rfl
        cases hcount
      refine ⟨⟨hgrammatical, hgrammatical'⟩, _, hpasses.append (hcomma.append hpasses'), ?_, ?_⟩
      · exact (argumentCount_append hne' hown.no_comma).trans (congrArg (· + 1) hcount)
      · intro v hv
        have hmem : Token.word "," ∈ [Token.variable v] := hv ▸ by simp
        simp at hmem

/-- A pattern demands to be grammatical. -/
theorem Pattern.demands : ∀ p : Pattern, Demands (solid p.tokens) p.IsGrammatical
  | .triples ts => Pattern.demands_triples ts
  | .optional g => Pattern.demands_optional (group_demands g)
  | .filter e => e.sound.filter
  | .bind e v => e.sound.bind v
  | .group g => Pattern.demands_group (group_demands g)
  | .service endpoint silent g => Pattern.demands_service (group_demands g) endpoint silent
  | .subselect q => by
      have hq : Demands (solid q.tokens) (Pattern.subselect q).IsGrammatical := q.demands
      simpa [Pattern.tokens, block] using hq.block

theorem group_demands : ∀ g : List Pattern, Demands (groupSolid g) (GroupIsGrammatical g)
  | [] => .mute (by simp [groupSolid, groupTokens])
  | p :: rest => by
      rw [groupSolid_cons]
      exact p.demands.append (group_demands rest)

theorem Select.demands : ∀ q : Select, Demands (solid q.tokens) q.IsGrammatical
  | ⟨_, _, body, ⟨orderBy, _, _⟩⟩ =>
      Select.demands_of_parts (group_demands body) (order_demands orderBy)

theorem order_demands : ∀ keys : List OrderCondition,
    Demands ((orderTokens keys).flatMap solid) (OrderIsGrammatical keys)
  | [] => .mute (by simp [orderTokens])
  | ⟨e, _⟩ :: rest => e.sound.key (order_demands rest)

end

/-! ## Expressions that have a text -/

/-- A grammatical expression derives. -/
theorem Expression.derives {e : Expression} (h : e.IsGrammatical) :
    Derives .expression (solid e.tokens) :=
  (Expression.derives_writtenLevel h).loosen e.one_le_writtenLevel

/-- An expression that derives is grammatical. -/
theorem Expression.isGrammatical_of_derives {e : Expression}
    (h : Derives .expression (solid e.tokens)) : e.IsGrammatical := by
  obtain ⟨own, hpasses, -⟩ := h.takes [] (Production.starts_nil _)
  have hadmits : Admits [[]] (solid e.tokens) := by
    unfold Admits
    rw [hpasses]
    rfl
  exact (e.sound [] [] hadmits).1

/-- The text of an operand derives if that of an operator with it does. -/
theorem Expression.operand_derives_iff {e : Expression} {op : BinaryOp} {onRight : Bool} :
    Derives (.level (op.operandLevel onRight))
        (solid (parenthesizedIf (e.needsParentheses op onRight) e.tokens)) ↔
      e.IsGrammatical ∧
        (onRight = false → ¬ (op.isComparison = true ∧ e.isComparison = true)) := by
  have hvar : ∀ onRight, Derives (.level (op.operandLevel onRight))
      (solid (parenthesizedIf ((Expression.var ⟨"x"⟩).needsParentheses op onRight)
        (Expression.var ⟨"x"⟩).tokens)) :=
    fun onRight => (Expression.derives_writtenLevel (e := .var ⟨"x"⟩) trivial).side op onRight
      fun _ h => nomatch h.2
  have hone : 1 ≤ op.precedence := op.loosest_le_precedence
  constructor
  · intro h
    cases onRight with
    | false =>
        have hbinary := (h.binary op (hvar true)).loosen hone
        have hall : (Expression.binary op e (.var ⟨"x"⟩)).IsGrammatical :=
          Expression.isGrammatical_of_derives (by simpa [Expression.tokens] using hbinary)
        exact ⟨hall.1, fun _ => hall.2.2⟩
    | true =>
        have hbinary := ((hvar false).binary op h).loosen hone
        have hall : (Expression.binary op (.var ⟨"x"⟩) e).IsGrammatical :=
          Expression.isGrammatical_of_derives (by simpa [Expression.tokens] using hbinary)
        exact ⟨hall.2.1, nofun⟩
  · rintro ⟨he, hchain⟩
    exact (Expression.derives_writtenLevel he).side op onRight hchain

/-- An operand of `!` derives if it is grammatical and no negation itself. -/
theorem Expression.negated_derives_iff {e : Expression} :
    Derives .primary (solid (parenthesizedIf e.isBinary e.tokens)) ↔
      e.IsGrammatical ∧ e.isNegation = false := by
  constructor
  · intro h
    have hunary : Derives .unary (.word "!" :: _) := .unary List.mem_cons_self h
    have hnot : Derives .expression (solid (Expression.not e).tokens) :=
      Expression.solid_not e ▸ hunary.loosen (by decide)
    exact Expression.isGrammatical_of_derives hnot
  · rintro ⟨he, hnegation⟩
    exact (Expression.derives_writtenLevel he).negated hnegation

/-- **When a text derives.**  The text of an expression derives from the production of
expressions if and only if the expression is grammatical.  What is written of it on either
side of a comparison derives from that of sums if and only if it is grammatical and, on the
left, no comparison; what is written of it behind `!` derives from that of primary expressions
if and only if it is grammatical and no negation. -/
theorem expression_derives_iff (e : Expression) :
    (Derives .expression (solid e.tokens) ↔ e.IsGrammatical) ∧
    (∀ (op : BinaryOp) (onRight : Bool), op.isComparison = true →
      (Derives .numeric (solid (parenthesizedIf (e.needsParentheses op onRight) e.tokens)) ↔
        e.IsGrammatical ∧ (onRight = false → e.isComparison = false))) ∧
    (Derives .primary (solid (parenthesizedIf e.isBinary e.tokens)) ↔
      e.IsGrammatical ∧ e.isNegation = false) := by
  refine ⟨⟨Expression.isGrammatical_of_derives, Expression.derives⟩, ?_,
    Expression.negated_derives_iff⟩
  intro op onRight hop
  simpa [BinaryOp.operandLevel, hop] using @Expression.operand_derives_iff e op onRight

/-- Comparisons on either side of `&&`, one within the other on the right, and a negation. -/
theorem expression_derives_iff_nested :
    Derives .expression (solid (Expression.binary .and
        (.eq (.var ⟨"a"⟩) (.eq (.var ⟨"b"⟩) (.var ⟨"c"⟩)))
        (.not (.binary .lt (.var ⟨"a"⟩) (.var ⟨"b"⟩)))).tokens) ∧
      BinaryOp.isComparison .eq = true ∧
      ¬ Derives .numeric (solid (Expression.eq (.var ⟨"a"⟩) (.var ⟨"b"⟩)).tokens) := by
  refine ⟨(expression_derives_iff _).1.mpr ?_, rfl, fun h => ?_⟩
  · simp [Expression.IsGrammatical, Expression.eq, Expression.isComparison,
      BinaryOp.isComparison, Expression.isNegation]
  · have hleft := (expression_derives_iff (.eq (.var ⟨"a"⟩) (.var ⟨"b"⟩))).2.1 .eq false rfl
    cases (hleft.mp h).2 rfl

/-- A chain of comparisons, and a negation of a negation. -/
theorem chains_not_derived :
    let chain := Expression.eq (.eq (.var ⟨"a"⟩) (.var ⟨"b"⟩)) (.var ⟨"c"⟩)
    let negations := Expression.not (.not (.var ⟨"a"⟩))
    (textOf .full chain.tokens = "?a = ?b = ?c" ∧ ¬ Derives .expression (solid chain.tokens)) ∧
      textOf .full negations.tokens = "!!?a" ∧ ¬ Derives .expression (solid negations.tokens) := by
  refine ⟨⟨by decide +kernel, fun h => ?_⟩, by decide +kernel, fun h => ?_⟩
  · exact (Expression.isGrammatical_of_derives h).2.2 ⟨rfl, rfl⟩
  · cases (Expression.isGrammatical_of_derives h).2

end ObjectGraph.Sparql
