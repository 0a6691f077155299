import ObjectGraph.Sparql.Printer

/-!
# The grammar of expressions

`Phrase` is the grammar by which expressions are read: every operator has a level, the
looser ones below, an operator takes a phrase of its own level on its left and a tighter one
on its right, `!` takes the tightest, and parentheses make a tight phrase of any other.  What
stands between the braces of a test for existence is read by a function that is given, and
only has its braces matched.

The grammar leaves no choice.  There is a reader that goes through the tokens once, from
left to right, and finds whatever the grammar allows (`Phrase.readAt_eq`), so there is at
most one expression (`Phrase.unique`).  A phrase may be continued by the operators of its
level and of looser ones, and this is what the induction says of the reader: in front of all
else that may follow a phrase, it is about to go on from the expression that was read.
-/

namespace ObjectGraph.Sparql

/-! ## Levels and braces -/

/-- The level of the loosest operator. -/
def loosest : Nat := BinaryOp.or.precedence

/-- The level of what no operator takes apart. -/
def tight : Nat := 4

/-- Every operator is looser than what no operator takes apart. -/
theorem BinaryOp.precedence_lt_tight (op : BinaryOp) : op.precedence < tight := by
  cases op <;> decide

/-- No operator is looser than the loosest. -/
theorem BinaryOp.loosest_le_precedence (op : BinaryOp) : loosest ≤ op.precedence := by
  cases op <;> decide

@[simp] theorem BinaryOp.ofSign?_sign (op : BinaryOp) : ofSign? op.sign = some op := by
  cases op <;> rfl

@[simp] theorem Builtin.ofName?_name (f : Builtin) : ofName? f.name = some f := by
  cases f <;> rfl

def leftBrace : Token := .word "\x7b"

def rightBrace : Token := .word "\x7d"

/-- Tokens of which every brace has its counterpart. -/
inductive Balanced : List Token → Prop
  | nil : Balanced []
  | token {t : Token} {ts : List Token} (hleft : t ≠ leftBrace) (hright : t ≠ rightBrace)
      (rest : Balanced ts) : Balanced (t :: ts)
  | braces {ts us : List Token} (inner : Balanced ts) (rest : Balanced us) :
      Balanced (leftBrace :: ts ++ rightBrace :: us)

/-! ## Expressions -/

mutual

/-- The tokens of an expression of a level, given how groups are read. -/
inductive Phrase (groups : List Token → List Pattern) : Nat → List Token → Expression → Prop
  | var (v : Var) : Phrase groups tight [.variable v] (.var v)
  | iri (i : String) : Phrase groups tight [.iri i] (.iri i)
  | literal (l : Literal) : Phrase groups tight l.tokens (.literal l)
  | not {ts : List Token} {e : Expression} (operand : Phrase groups tight ts e) :
      Phrase groups tight (.word "!" :: ts) (.not e)
  | call (f : Builtin) {ts : List Token} {args : List Expression}
      (arguments : Phrases groups ts args) :
      Phrase groups tight (.word f.name :: parenthesized ts) (.call f args)
  | exist {ts : List Token} (group : Balanced ts) :
      Phrase groups tight (.word "EXISTS" :: leftBrace :: ts ++ [rightBrace])
        (.exist (groups ts))
  | notExist {ts : List Token} (group : Balanced ts) :
      Phrase groups tight (.word "NOT" :: .word "EXISTS" :: leftBrace :: ts ++ [rightBrace])
        (.notExist (groups ts))
  | parenthesized {ts : List Token} {e : Expression} (inner : Phrase groups loosest ts e) :
      Phrase groups tight (parenthesized ts) e
  | binary {op : BinaryOp} {ts us : List Token} {l r : Expression}
      (left : Phrase groups op.precedence ts l)
      (right : Phrase groups (op.precedence + 1) us r) :
      Phrase groups op.precedence (ts ++ .word op.sign :: us) (.binary op l r)
  | tighter {level : Nat} {ts : List Token} {e : Expression}
      (phrase : Phrase groups (level + 1) ts e) : Phrase groups level ts e

/-- The tokens of the arguments of a call, apart by commas. -/
inductive Phrases (groups : List Token → List Pattern) : List Token → List Expression → Prop
  | none : Phrases groups [] []
  | last {ts : List Token} {e : Expression} (phrase : Phrase groups loosest ts e) :
      Phrases groups ts [e]
  | cons {ts us : List Token} {e a : Expression} {args : List Expression}
      (phrase : Phrase groups loosest ts e) (rest : Phrases groups us (a :: args)) :
      Phrases groups (ts ++ .word "," :: us) (e :: a :: args)

end

/-! ## The reader -/

/-- What stands behind a word. -/
def expect (w : String) : List Token → Option (List Token)
  | .word s :: rest => if s = w then some rest else none
  | _ => none

/-- The tokens in front of the brace that closes a group, and those behind it, where some
inner groups are still open. -/
def untilClosed (depth : Nat) : List Token → Option (List Token × List Token)
  | [] => none
  | t :: rest =>
    if t = rightBrace ∧ depth = 0 then some ([], rest)
    else
      let depth :=
        if t = leftBrace then depth + 1 else if t = rightBrace then depth - 1 else depth
      (untilClosed depth rest).map fun p => (t :: p.1, p.2)

/-- The tokens of a group and those behind it. -/
def readGroup? : List Token → Option (List Token × List Token)
  | t :: rest => if t = leftBrace then untilClosed 0 rest else none
  | [] => none

/-- A literal and the tokens behind it. -/
def readLiteral? : List Token → Option (Literal × List Token)
  | .word s :: rest =>
    if s = "true" then some (.boolean true, rest)
    else if s = "false" then some (.boolean false, rest)
    else none
  | .quoted s :: .language tag :: rest => some (.tagged s tag, rest)
  | .quoted s :: rest =>
    match expect "^^" rest with
    | some (.iri datatype :: rest) => some (.typed s datatype, rest)
    | _ => some (.plain s, rest)
  | _ => none

variable (groups : List Token → List Pattern)

mutual

/-- The expression of a level in front of tokens, and those behind it. -/
def readAt (level : Nat) (ts : List Token) : Option (Expression × List Token) :=
  if level < tight then do
    let (e, rest) ← readAt (level + 1) ts
    if rest.length < ts.length then readOn level e rest else none
  else readTight ts
termination_by (ts.length, tight - level + 2)

/-- Goes on from an expression with the operators of a level. -/
def readOn (level : Nat) (left : Expression) (ts : List Token) :
    Option (Expression × List Token) :=
  match ts with
  | .word s :: rest =>
    match BinaryOp.ofSign? s with
    | some op =>
      if op.precedence = level then do
        let (right, rest') ← readAt (level + 1) rest
        if rest'.length < rest.length then readOn level (.binary op left right) rest' else none
      else some (left, ts)
    | none => some (left, ts)
  | ts => some (left, ts)
termination_by (ts.length, 0)

/-- The expression in front of tokens that no operator takes apart. -/
def readTight (ts : List Token) : Option (Expression × List Token) :=
  match ts with
  | .variable v :: rest => some (.var v, rest)
  | .iri i :: rest => some (.iri i, rest)
  | .word s :: rest =>
    if s = "!" then (readTight rest).map fun p => (.not p.1, p.2)
    else if s = "(" then do
      let (e, rest) ← readAt loosest rest
      (expect ")" rest).map fun rest => (e, rest)
    else if s = "EXISTS" then (readGroup? rest).map fun p => (.exist (groups p.1), p.2)
    else if s = "NOT" then do
      let rest ← expect "EXISTS" rest
      (readGroup? rest).map fun p => (.notExist (groups p.1), p.2)
    else
      match Builtin.ofName? s with
      | some f =>
        match rest with
        | t :: rest =>
          if t = .word "(" then (readArguments rest).map fun p => (.call f p.1, p.2) else none
        | [] => none
      | none => (readLiteral? ts).map fun p => (.literal p.1, p.2)
  | ts => (readLiteral? ts).map fun p => (.literal p.1, p.2)
termination_by (ts.length, 1)

/-- The arguments of a call up to the closing parenthesis, and the tokens behind it. -/
def readArguments (ts : List Token) : Option (List Expression × List Token) :=
  match expect ")" ts with
  | some rest => some ([], rest)
  | none => do
    let (e, rest) ← readAt loosest ts
    match expect ")" rest with
    | some rest => some ([e], rest)
    | none => do
      let rest ← expect "," rest
      if rest.length < ts.length then
        (readArguments rest).map fun p => (e :: p.1, p.2)
      else none
termination_by (ts.length, tight + 3)

end

/-! ## What the reader finds -/

section

variable {groups} {level level' : Nat} {ts us rest : List Token} {e : Expression}

/-- The search for the closing brace passes over balanced tokens. -/
theorem untilClosed_append (h : Balanced ts) (depth : Nat) (rest : List Token) :
    untilClosed depth (ts ++ rest) =
      (untilClosed depth rest).map fun p => (ts ++ p.1, p.2) := by
  induction h generalizing depth rest with
  | nil => simp
  | token hleft hright _ ih => simp [untilClosed, hleft, hright, ih, Function.comp_def]
  | braces _ _ ih ih' =>
      have hne : leftBrace ≠ rightBrace := by decide
      simp [untilClosed, hne, hne.symm, ih, ih', Function.comp_def]

/-- A group is read up to the brace that closes it. -/
theorem readGroup?_of_balanced (h : Balanced ts) (rest : List Token) :
    readGroup? (leftBrace :: ts ++ [rightBrace] ++ rest) = some (ts, rest) := by
  have hclosed := untilClosed_append h 0 (rightBrace :: rest)
  simpa [readGroup?, untilClosed] using hclosed

/-- Nothing comes that could go on with a phrase of a level: at most a closing parenthesis,
a comma or an operator of a looser level. -/
def Stops (level : Nat) : List Token → Prop
  | [] => True
  | t :: _ =>
    t = .word ")" ∨ t = .word "," ∨
      ∃ op : BinaryOp, op.precedence < level ∧ t = .word op.sign

/-- What stops a level stops all tighter ones. -/
theorem Stops.mono (h : Stops level rest) (hlevel : level ≤ level') : Stops level' rest := by
  cases rest with
  | nil => trivial
  | cons t rest =>
      rcases h with h | h | ⟨op, hop, h⟩
      · exact .inl h
      · exact .inr (.inl h)
      · exact .inr (.inr ⟨op, by omega, h⟩)

/-- Where no operator of a level comes the reader returns what it has. -/
theorem readOn_of_stops (h : Stops level' rest)
    (hlevel : ∀ op : BinaryOp, op.precedence < level' → op.precedence ≠ level) :
    readOn groups level e rest = some (e, rest) := by
  cases rest with
  | nil => rw [readOn]; simp
  | cons t rest =>
      rcases h with rfl | rfl | ⟨op, hop, rfl⟩
      · rw [readOn]; rfl
      · rw [readOn]; rfl
      · rw [readOn]
        simp [hlevel op hop]

/-- Operators never go on with an expression that is tight. -/
theorem readOn_tight (rest : List Token) (h : Stops (tight + 1) rest) :
    readOn groups tight e rest = some (e, rest) :=
  readOn_of_stops h fun op _ => Nat.ne_of_lt (BinaryOp.precedence_lt_tight op)

/-- No operator of a tighter level comes. -/
theorem readOn_tighter (h : Stops (level + 1) rest) :
    readOn groups (level + 1) e rest = some (e, rest) :=
  readOn_of_stops h fun _ => Nat.ne_of_lt

/-- There is no level beyond the tightest. -/
theorem Phrase.level_le : ∀ {level : Nat} {ts : List Token} {e : Expression},
    Phrase groups level ts e → level ≤ tight
  | _, _, _, .var _ | _, _, _, .iri _ | _, _, _, .literal _ | _, _, _, .not _
  | _, _, _, .call _ _ | _, _, _, .exist _ | _, _, _, .notExist _
  | _, _, _, .parenthesized _ => Nat.le_refl _
  | _, _, _, .binary _ _ => Nat.le_of_lt (BinaryOp.precedence_lt_tight _)
  | _, _, _, .tighter phrase => by
      have := phrase.level_le
      omega

/-- A phrase starts with a token, and not with a closing parenthesis. -/
theorem Phrase.starts : ∀ {level : Nat} {ts : List Token} {e : Expression},
    Phrase groups level ts e → ∃ t us, ts = t :: us ∧ t ≠ .word ")"
  | _, _, _, .var _ | _, _, _, .iri _ | _, _, _, .not _ | _, _, _, .exist _
  | _, _, _, .notExist _ | _, _, _, .parenthesized _ => ⟨_, _, rfl, by simp⟩
  | _, _, _, .call f _ => ⟨_, _, rfl, by cases f <;> decide⟩
  | _, _, _, .literal l => by
      match l with
      | .plain _ | .tagged _ _ | .typed _ _ => exact ⟨_, _, rfl, by simp⟩
      | .boolean b => exact ⟨_, _, rfl, by cases b <;> decide⟩
  | _, _, _, .binary left _ => by
      obtain ⟨t, us, rfl, ht⟩ := left.starts
      exact ⟨t, _, rfl, ht⟩
  | _, _, _, .tighter phrase => phrase.starts

/-- A phrase has a token. -/
theorem Phrase.ne_nil (h : Phrase groups level ts e) : ts ≠ [] := by
  obtain ⟨t, us, rfl, -⟩ := h.starts
  exact List.cons_ne_nil _ _

/-- What the reader makes of a phrase, whatever comes behind that does not go on with it: it
goes on from the expression that the phrase is of. -/
def Continues (groups : List Token → List Pattern) (level : Nat) (ts : List Token)
    (e : Expression) : Prop :=
  ∀ rest, Stops (level + 1) rest →
    readAt groups level (ts ++ rest) = readOn groups level e rest

/-- What no operator takes apart is read as it is. -/
theorem Continues.of_tight
    (h : ∀ rest, Stops (tight + 1) rest → readTight groups (ts ++ rest) = some (e, rest)) :
    Continues groups tight ts e := by
  intro rest hrest
  rw [readAt, if_neg (Nat.lt_irrefl _), h rest hrest, readOn_tight rest hrest]

/-- What is read as it is leaves what comes behind it. -/
theorem Continues.readTight_eq (h : Continues groups tight ts e)
    (hrest : Stops (tight + 1) rest) : readTight groups (ts ++ rest) = some (e, rest) := by
  have hread := h rest hrest
  rwa [readAt, if_neg (Nat.lt_irrefl _), readOn_tight rest hrest] at hread

/-- In front of what does not go on with a phrase of a looser level, nothing does with a
phrase of its own. -/
theorem Continues.complete (h : Continues groups (level + 1) ts e)
    (hrest : Stops (level + 1) rest) :
    readAt groups (level + 1) (ts ++ rest) = some (e, rest) := by
  rw [h rest (hrest.mono (Nat.le_succ _)), readOn_tighter hrest]

/-- A phrase of a level is one of the looser level below. -/
theorem Continues.tighter (h : Continues groups (level + 1) ts e) (hlevel : level < tight)
    (hne : ts ≠ []) : Continues groups level ts e := by
  intro rest hrest
  rw [readAt, if_pos hlevel, h.complete hrest]
  simp [hne]

/-- An operator is read between its operands. -/
theorem Continues.binary {op : BinaryOp} {l r : Expression}
    (hl : Continues groups op.precedence ts l)
    (hr : Continues groups (op.precedence + 1) us r) (hne : us ≠ []) :
    Continues groups op.precedence (ts ++ .word op.sign :: us) (.binary op l r) := by
  intro rest hrest
  -- the sign goes on with the left operand; another one of its level ends the right operand
  -- and goes on with the whole phrase
  have hsign : Stops (op.precedence + 1) (.word op.sign :: (us ++ rest)) :=
    .inr (.inr ⟨op, Nat.lt_succ_self _, rfl⟩)
  rw [List.append_assoc, List.cons_append, hl _ hsign, readOn]
  simp [hr.complete hrest, hne]

/-- A plain literal is read if no datatype or language comes behind it. -/
theorem readLiteral?_plain (s : String) (hrest : Stops level rest) :
    readLiteral? (.quoted s :: rest) = some (.plain s, rest) := by
  cases rest with
  | nil => simp [readLiteral?, expect]
  | cons t rest =>
      rcases hrest with rfl | rfl | ⟨op, -, rfl⟩
      · simp [readLiteral?, expect]
      · simp [readLiteral?, expect]
      · have hne : op.sign ≠ "^^" := by cases op <;> decide
        simp [readLiteral?, expect, hne]

/-- A literal is read. -/
theorem Continues.literal (l : Literal) : Continues groups tight l.tokens (.literal l) := by
  refine .of_tight fun rest hrest => ?_
  match l with
  | .plain s => simp [Literal.tokens, readTight, readLiteral?_plain s hrest]
  | .tagged _ _ | .typed _ _ => simp [Literal.tokens, readTight, readLiteral?, expect]
  | .boolean b =>
      have hname : Builtin.ofName? (if b then "true" else "false") = none := by
        cases b <;> decide
      cases b <;> simp_all [Literal.tokens, readTight, readLiteral?]

theorem Continues.not (h : Continues groups tight ts e) :
    Continues groups tight (.word "!" :: ts) (.not e) :=
  .of_tight fun rest hrest => by
    rw [List.cons_append, readTight, if_pos rfl, h.readTight_eq hrest]
    rfl

/-- A phrase in parentheses is read. -/
theorem Continues.parenthesized (h : Continues groups loosest ts e) :
    Continues groups tight (parenthesized ts) e := by
  refine .of_tight fun rest hrest => ?_
  have hread : readAt groups loosest (ts ++ (.word ")" :: rest)) = some (e, .word ")" :: rest) :=
    Continues.complete h (.inl rfl)
  simp [Sparql.parenthesized, readTight, hread, expect]

/-- A test for existence is read. -/
theorem Continues.exist (hgroup : Balanced ts) :
    Continues groups tight (.word "EXISTS" :: leftBrace :: ts ++ [rightBrace])
      (.exist (groups ts)) := by
  refine .of_tight fun rest _ => ?_
  have hread := readGroup?_of_balanced hgroup rest
  simp_all [readTight]

theorem Continues.notExist (hgroup : Balanced ts) :
    Continues groups tight (.word "NOT" :: .word "EXISTS" :: leftBrace :: ts ++ [rightBrace])
      (.notExist (groups ts)) := by
  refine .of_tight fun rest _ => ?_
  have hread := readGroup?_of_balanced hgroup rest
  simp_all [readTight, expect]

/-- A call is read. -/
theorem Continues.call (f : Builtin) {args : List Expression}
    (h : ∀ rest, readArguments groups (ts ++ .word ")" :: rest) = some (args, rest)) :
    Continues groups tight (.word f.name :: Sparql.parenthesized ts) (.call f args) := by
  refine .of_tight fun rest _ => ?_
  have hname : f.name ≠ "!" ∧ f.name ≠ "(" ∧ f.name ≠ "EXISTS" ∧ f.name ≠ "NOT" := by
    cases f <;> decide
  simp [Sparql.parenthesized, readTight, hname, h]

/-- A phrase does not start with a closing parenthesis. -/
theorem expect_of_starts (h : ∃ t us, ts = t :: us ∧ t ≠ .word ")") (rest : List Token) :
    expect ")" (ts ++ rest) = none := by
  obtain ⟨t, us, rfl, ht⟩ := h
  cases t <;> simp_all [expect]

/-- The last argument is read up to the closing parenthesis. -/
theorem readArguments_last (h : Continues groups loosest ts e)
    (hstarts : ∃ t us, ts = t :: us ∧ t ≠ .word ")") (rest : List Token) :
    readArguments groups (ts ++ .word ")" :: rest) = some ([e], rest) := by
  have hread : readAt groups loosest (ts ++ (.word ")" :: rest)) = some (e, .word ")" :: rest) :=
    Continues.complete h (.inl rfl)
  rw [readArguments, expect_of_starts hstarts, hread]
  rfl

/-- An argument is read up to the comma. -/
theorem readArguments_cons {args : List Expression} (h : Continues groups loosest ts e)
    (hstarts : ∃ t us, ts = t :: us ∧ t ≠ .word ")")
    (hargs : readArguments groups us = some (args, rest)) :
    readArguments groups (ts ++ .word "," :: us) = some (e :: args, rest) := by
  have hread : readAt groups loosest (ts ++ (.word "," :: us)) = some (e, .word "," :: us) :=
    Continues.complete h (.inr (.inl rfl))
  have hlength : us.length < ts.length + (us.length + 1) := by omega
  rw [readArguments, expect_of_starts hstarts, hread]
  simp [expect, hargs, hlength]

mutual

/-- The reader finds whatever the grammar allows. -/
theorem Phrase.continues : ∀ {level : Nat} {ts : List Token} {e : Expression},
    Phrase groups level ts e → Continues groups level ts e
  | _, _, _, .var v => .of_tight fun rest _ => by simp [readTight]
  | _, _, _, .iri i => .of_tight fun rest _ => by simp [readTight]
  | _, _, _, .literal l => .literal l
  | _, _, _, .not operand => operand.continues.not
  | _, _, _, .call f arguments => .call f arguments.read
  | _, _, _, .exist group => .exist group
  | _, _, _, .notExist group => .notExist group
  | _, _, _, .parenthesized inner => inner.continues.parenthesized
  | _, _, _, .binary left right => left.continues.binary right.continues right.ne_nil
  | _, _, _, .tighter phrase => phrase.continues.tighter phrase.level_le phrase.ne_nil

/-- All arguments are read up to the closing parenthesis. -/
theorem Phrases.read : ∀ {ts : List Token} {args : List Expression}, Phrases groups ts args →
    ∀ rest, readArguments groups (ts ++ .word ")" :: rest) = some (args, rest)
  | _, _, .none, rest => by simp [readArguments, expect]
  | _, _, .last phrase, rest => readArguments_last phrase.continues phrase.starts rest
  | _, _, .cons phrase args, rest => by
      rw [List.append_assoc]
      exact readArguments_cons phrase.continues phrase.starts (args.read rest)

end

/-- All of a phrase is read. -/
theorem Phrase.readAt_eq (h : Phrase groups loosest ts e) :
    readAt groups loosest ts = some (e, []) := by
  have hread : readAt groups loosest (ts ++ []) = some (e, []) :=
    Continues.complete h.continues trivial
  rwa [List.append_nil] at hread

/-- Tokens are a phrase of at most one expression. -/
theorem Phrase.unique {e' : Expression} (h : Phrase groups loosest ts e)
    (h' : Phrase groups loosest ts e') : e = e' := by
  have hread := h.readAt_eq.symm.trans h'.readAt_eq
  simpa using hread

end

end ObjectGraph.Sparql
