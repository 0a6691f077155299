import ObjectGraph.Proofs.Sparql.Productions

/-!
# Scanning texts

What is left of a text when the brackets in it are emptied is a row of tokens, and inside of
each bracket is another one.  In rows it can be seen that a text does not derive: a second
comparison behind the first, with nothing between them that ends an operand of `&&` or `||`,
a second `!` behind the first, a call with the wrong number of commas, nothing that is
selected.  `scan` goes through the tokens once and keeps the rows of all open brackets, the
last token of a row in front.

It gets through whatever derives, wherever that may stand (`Derives.takes`).  The induction
says of each production in front of what it may come (`Production.Starts`) and what it adds to
the row there (`Production.Adds`).
-/

namespace ObjectGraph.Sparql

/-! ## Scanning -/

/-- Tokens of which a relation has at most one. -/
def compares : Token → Bool
  | .word s => s ∈ ["=", "!=", "<", "<=", ">", ">=", "IN"]
  | _ => false

/-- Tokens behind which there may be another relation. -/
def separates : Token → Bool
  | .word s => s ∈ [",", "&&", "||"]
  | _ => false

/-- Whether a row ends in a relation that compares. -/
def compared : List Token → Bool
  | [] => false
  | t :: row => !separates t && (compares t || compared row)

/-- Whether a token may come next in a row. -/
def mayFollow (row : List Token) (t : Token) : Bool :=
  !(compares t && compared row) &&
    !(t == .word "!" && row.head? == some (.word "!")) &&
    !(t == .word "WHERE" &&
      (row.head? == some (.word "SELECT") || row.head? == some (.word "DISTINCT")))

/-- How many expressions apart by commas are in a row. -/
def argumentCount (row : List Token) : Nat :=
  if row.isEmpty then 0 else row.count (.word ",") + 1

/-- Whether a row holds the arguments of a function. -/
def Builtin.accepts (f : Builtin) (row : List Token) : Bool :=
  match f, row with
  | .bound, [.variable _] => true
  | f, row => f.takes (argumentCount row)

/-- Whether a row may stand in parentheses behind a token. -/
def mayClose (front : Option Token) (row : List Token) : Bool :=
  match front with
  | some (.word s) => (Builtin.ofName? s).all fun f => f.accepts row
  | _ => true

/-- Takes one token. -/
def take (rows : List (List Token)) (t : Token) : Option (List (List Token)) :=
  if t = .word "(" ∨ t = leftBrace then some ([] :: rows)
  else
    match rows with
    | [] => none
    | row :: rows =>
      if t = .word ")" ∨ t = rightBrace then
        match rows with
        | [] => none
        | outer :: rows =>
          if t = rightBrace ∨ mayClose outer.head? row then some ((t :: outer) :: rows) else none
      else if mayFollow row t then some ((t :: row) :: rows)
      else none

/-- Takes tokens one after the other. -/
def scan (rows : List (List Token)) (ts : List Token) : Option (List (List Token)) :=
  ts.foldlM take rows

variable {row own own' : List Token} {rows : List (List Token)} {ts us : List Token} {t : Token}

/-! ## Tokens that are only noted -/

/-- A token that is no bracket and that neither `!` nor `SELECT` has to be looked out for. -/
def Token.isPlain (t : Token) : Bool :=
  t ∉ [.word "(", .word ")", leftBrace, rightBrace, .word "!", .word "WHERE"]

/-- A token that a scan only notes. -/
def Token.isMute (t : Token) : Bool :=
  t.isPlain && !compares t && !separates t

/-- A mute token is plain, compares nothing and separates nothing. -/
theorem Token.isMute_iff :
    t.isMute = true ↔ (t.isPlain = true ∧ compares t = false) ∧ separates t = false := by
  simp [isMute]

@[simp] theorem Token.isMute_variable (v : Var) : (Token.variable v).isMute = true := by
  simp [isMute, isPlain, compares, separates, leftBrace, rightBrace]

@[simp] theorem Token.isMute_iri (i : String) : (Token.iri i).isMute = true := by
  simp [isMute, isPlain, compares, separates, leftBrace, rightBrace]

@[simp] theorem Token.isMute_quoted (s : String) : (Token.quoted s).isMute = true := by
  simp [isMute, isPlain, compares, separates, leftBrace, rightBrace]

@[simp] theorem Token.isMute_language (tag : String) : (Token.language tag).isMute = true := by
  simp [isMute, isPlain, compares, separates, leftBrace, rightBrace]

@[simp] theorem Token.isMute_blank (label : String) : (Token.blank label).isMute = true := by
  simp [isMute, isPlain, compares, separates, leftBrace, rightBrace]

/-- The words that a scan looks out for. -/
def scannedWords : List String :=
  ["(", ")", "\x7b", "\x7d", "!", "WHERE", "=", "!=", "<", "<=", ">", ">=", "IN", ",", "&&", "||"]

/-- Every word is mute that a scan does not look out for. -/
theorem Token.isMute_word {s : String} (h : s ∉ scannedWords) : Token.isMute (.word s) = true := by
  simp_all [scannedWords, isMute, isPlain, compares, separates, leftBrace, rightBrace]

/-- None of them is a number. -/
theorem Token.isMute_repr (n : Nat) : Token.isMute (.word n.repr) = true := by
  have hfirst : ∀ s ∈ scannedWords, s.toList.head?.any (fun c => !c.isDigit) = true := by decide
  refine Token.isMute_word fun hmem => ?_
  have hany := hfirst _ hmem
  cases hchars : n.repr.toList with
  | nil => simp [hchars] at hany
  | cons c cs =>
      have hdigit : c.isDigit = false := by simpa [hchars] using hany
      exact repr_ne hdigit n cs (by rw [← hchars, String.ofList_toList])

/-- The tokens of literals are mute. -/
theorem Literal.mute (l : Literal) : ∀ t ∈ l.tokens, t.isMute = true := by
  cases l with
  | plain | tagged => simp [tokens]
  | typed s datatype => simp [tokens, show Token.isMute (.word "^^") = true by decide]
  | boolean b => cases b <;> decide

theorem Term.mute (t : Term) : ∀ token ∈ t.tokens, token.isMute = true := by
  cases t with
  | literal l => exact l.mute
  | var | iri | blank => simp [tokens]

/-- Signs of arithmetic are only noted. -/
theorem arithmetic_isMute {sign : String} (h : sign ∈ ["+", "-", "*", "/"]) :
    Token.isMute (.word sign) = true ∧ Builtin.ofName? sign = none ∧ sign ≠ "!" := by
  revert sign
  decide

/-- The sign of an operator is plain and names no function. -/
theorem BinaryOp.sign_isPlain (op : BinaryOp) :
    Token.isPlain (.word op.sign) = true ∧ Builtin.ofName? op.sign = none ∧ op.sign ≠ "!" ∧
      op.sign ≠ "," := by
  cases op <;> decide

/-- The signs that compare are those of the comparisons. -/
theorem BinaryOp.compares_sign (op : BinaryOp) : compares (.word op.sign) = op.isComparison := by
  cases op <;> decide

/-- Behind the sign of a comparison a row compares. -/
theorem BinaryOp.compared_sign {op : BinaryOp} (hop : op.isComparison = true) (row : List Token) :
    compared (.word op.sign :: row) = true := by
  have hseparates : separates (.word op.sign) = false := by
    revert hop
    cases op <;> decide
  simp [compared, hseparates, op.compares_sign, hop]

/-- The names of functions are noted. -/
theorem Builtin.name_isMute (f : Builtin) : Token.isMute (.word f.name) = true := by
  cases f <;> decide

/-- What is selected is noted. -/
theorem Selection.mute (h : Selection ts) : ∀ t ∈ ts, t.isMute = true := by
  cases h with
  | all => decide
  | vars v vs => simp

theorem cut_mute (word : String) (hword : Token.isMute (.word word) = true) (n : Option Nat) :
    ∀ t ∈ cut word n, t.isMute = true := by
  cases n with
  | none => simp [cut]
  | some n => simp [cut, hword, Token.isMute_repr]

/-! ## Rows -/

/-- A scan goes on from where it is. -/
theorem scan_append (rows : List (List Token)) (ts us : List Token) :
    scan rows (ts ++ us) = (scan rows ts).bind fun rows => scan rows us :=
  List.foldlM_append

/-- A scan takes the first token and goes on. -/
theorem scan_cons (rows : List (List Token)) (t : Token) (ts : List Token) :
    scan rows (t :: ts) = (take rows t).bind fun rows => scan rows ts :=
  List.foldlM_cons

/-- Tokens add some of them to the row. -/
def Passes (row ts own : List Token) : Prop :=
  ∀ rows, scan (row :: rows) ts = some ((own ++ row) :: rows)

/-- All tokens can be taken. -/
def Admits (rows : List (List Token)) (ts : List Token) : Prop :=
  (scan rows ts).isSome = true

namespace Passes

theorem nil (row : List Token) : Passes row [] [] := fun _ => rfl

/-- What comes later adds to the row in front. -/
theorem append (h : Passes row ts own) (h' : Passes (own ++ row) us own') :
    Passes row (ts ++ us) (own' ++ own) := by
  intro rows
  rw [scan_append, h, Option.bind_some, h', List.append_assoc]

/-- A relation comes next only where there is none before. -/
theorem one (h : t.isPlain = true) (hcompared : compares t = true → compared row = false) :
    Passes row [t] [t] := by
  intro rows
  have hfollow : mayFollow row t = true := by
    cases hcompares : compares t <;> simp_all [Token.isPlain, mayFollow]
  simp_all [Token.isPlain, scan, take]

/-- A token that neither compares nor is a bracket is added to the row. -/
theorem cons (ht : t.isPlain = true ∧ compares t = false) (h : Passes (t :: row) ts own) :
    Passes row (t :: ts) (own ++ [t]) :=
  (one ht.1 (by simp [ht.2])).append h

theorem note (ht : t.isMute = true) (h : Passes (t :: row) ts own) :
    Passes row (t :: ts) (own ++ [t]) :=
  h.cons (Token.isMute_iff.mp ht).1

/-- Mute tokens are all added to the row. -/
theorem mute (h : ∀ t ∈ ts, t.isMute = true) (row : List Token) : Passes row ts ts.reverse := by
  induction ts generalizing row with
  | nil => exact .nil row
  | cons t ts ih =>
      obtain ⟨ht, hts⟩ := List.forall_mem_cons.mp h
      rw [List.reverse_cons]
      exact (ih hts _).note ht

/-- A negation is added to the row behind everything but a negation. -/
theorem negation (h : row.head? ≠ some (.word "!")) : Passes row [.word "!"] [.word "!"] := by
  intro rows
  have hcompares : compares (.word "!") = false := by decide
  simp [scan, take, mayFollow, leftBrace, rightBrace, h, hcompares]

/-- Behind what is selected a group may come. -/
theorem body (hselect : row.head? ≠ some (.word "SELECT"))
    (hdistinct : row.head? ≠ some (.word "DISTINCT")) :
    Passes row [.word "WHERE"] [.word "WHERE"] := by
  intro rows
  have hcompares : compares (.word "WHERE") = false := by decide
  simp [scan, take, mayFollow, leftBrace, rightBrace, hselect, hdistinct, hcompares]

/-- Of parentheses the end is added to the row. -/
theorem parenthesized (h : Passes [] ts own) (hclose : mayClose row.head? own = true) :
    Passes row (parenthesized ts) [.word ")"] := by
  intro rows
  have hopen : take (row :: rows) (.word "(") = some ([] :: row :: rows) := rfl
  have hend : take (own :: row :: rows) (.word ")") = some ((.word ")" :: row) :: rows) := by
    simp [take, hclose, leftBrace, rightBrace]
  rw [Sparql.parenthesized, List.cons_append, scan_cons, hopen, Option.bind_some, scan_append, h]
  simp [hend, scan]

/-- Of braces the end is added to the row. -/
theorem block (h : Passes [] ts own) (row : List Token) : Passes row (block ts) [rightBrace] := by
  intro rows
  have hopen : take (row :: rows) leftBrace = some ([] :: row :: rows) := rfl
  have hend : take (own :: row :: rows) rightBrace = some ((rightBrace :: row) :: rows) := rfl
  rw [Sparql.block, List.cons_append, scan_cons, hopen, Option.bind_some, scan_append, h]
  simp [hend, scan]

/-- Brackets leave only their end. -/
theorem braced (h : Passes [] ts own) {front : List Token} (hfront : ∀ t ∈ front, t.isMute = true)
    (row : List Token) : Passes row (front ++ Sparql.block ts) ([rightBrace] ++ front.reverse) :=
  (mute hfront row).append (h.block _)

end Passes

/-! ## What a production adds -/

/-- Tokens that neither compare nor end an operand of `&&` or `||`. -/
def Quiet (own : List Token) : Prop :=
  ∀ t ∈ own, compares t = false ∧ separates t = false

/-- Quiet tokens leave undecided whether the row compares. -/
theorem Quiet.compared (h : Quiet own) (row : List Token) :
    compared (own ++ row) = compared row := by
  induction own with
  | nil => rfl
  | cons t own ih =>
      obtain ⟨ht, hown⟩ := List.forall_mem_cons.mp h
      simp [Sparql.compared, ht, ih hown]

/-- Mute tokens are quiet. -/
theorem Quiet.of_mute (h : ∀ t ∈ ts, t.isMute = true) : Quiet ts.reverse := by
  intro t ht
  obtain ⟨⟨-, hcompares⟩, hseparates⟩ := Token.isMute_iff.mp (h t (List.mem_reverse.mp ht))
  exact ⟨hcompares, hseparates⟩

theorem Quiet.one (ht : t.isMute = true) : Quiet [t] :=
  of_mute (List.forall_mem_singleton.mpr ht)

theorem quiet_parenthesis : Quiet [.word ")"] := by
  unfold Quiet
  decide

theorem quiet_brace : Quiet [rightBrace] := by
  unfold Quiet
  decide

/-- Quiet tokens stay so behind each other. -/
theorem Quiet.append (h : Quiet own) (h' : Quiet own') : Quiet (own ++ own') :=
  List.forall_mem_append.mpr ⟨h, h'⟩

/-- A comma is not quiet. -/
theorem Quiet.not_mem_comma (h : Quiet own) : .word "," ∉ own :=
  fun hmem => nomatch (h _ hmem).2

/-- No call is about to open its parenthesis. -/
def NoCall (row : List Token) : Prop :=
  ∀ s, row.head? = some (.word s) → Builtin.ofName? s = none

theorem noCall_nil : NoCall [] := by
  intro s hs
  cases hs

/-- Where no call opens parentheses may have anything in them. -/
theorem NoCall.mayClose (h : NoCall row) (own : List Token) : mayClose row.head? own = true := by
  unfold Sparql.mayClose
  split
  next s hs => rw [h s hs, Option.all_none]
  next => rfl

/-- Behind a word that names no function no call opens. -/
theorem noCall_word {s : String} (h : Builtin.ofName? s = none) (row : List Token) :
    NoCall (.word s :: row) := by
  rintro w ⟨rfl⟩
  exact h

theorem noCall_of_not_word (h : ∀ s, t ≠ .word s) (row : List Token) : NoCall (t :: row) :=
  fun s hs => (h s (Option.some.inj hs)).elim

/-- The rows behind which a production may come. -/
def Production.Starts : Production → List Token → Prop
  | .level n, row =>
    NoCall row ∧ (n ≤ 6 → row.head? ≠ some (.word "!")) ∧ (n ≤ 3 → compared row = false)
  | .constraint, row => NoCall row
  | .arguments _, row => NoCall row ∧ row.head? ≠ some (.word "!") ∧ compared row = false
  | .pattern, _ | .patterns, _ | .group, _ | .keys, _ => True

/-- What a production adds to a row. -/
def Production.Adds : Production → List Token → Prop
  | .level n, own => own ≠ [] ∧ .word "," ∉ own ∧ (4 ≤ n → Quiet own)
  | .constraint, own => own ≠ [] ∧ Quiet own
  | .arguments n, own => argumentCount own = n
  | .pattern, _ | .patterns, _ | .group, _ | .keys, _ => True

/-- Every production may come at the start. -/
theorem Production.starts_nil (p : Production) : p.Starts [] := by
  cases p <;> simp [Starts, NoCall, compared]

/-- A word in front starts an expression anew, at least one without relations. -/
theorem Production.starts_word (s : String) (hname : Builtin.ofName? s = none) (hneg : s ≠ "!")
    {n : Nat} (hn : 4 ≤ n ∨ separates (.word s) = true) (row : List Token) :
    (level n).Starts (.word s :: row) := by
  refine ⟨noCall_word hname row, fun _ => ?_, fun hle => ?_⟩
  · simpa using hneg
  · rcases hn with hn | hn
    · omega
    · simp [compared, hn]

/-- Operands and the operator between them. -/
theorem Production.adds_operator {n m k : Nat} (hleft : (level n).Adds own)
    (hright : (level m).Adds own') (hcomma : t ≠ .word ",")
    (hquiet : 4 ≤ k → 4 ≤ n ∧ 4 ≤ m ∧ compares t = false ∧ separates t = false) :
    (level k).Adds (own' ++ [t] ++ own) := by
  obtain ⟨hne, hcommas, hown⟩ := hleft
  obtain ⟨hne', hcommas', hown'⟩ := hright
  refine ⟨by simp, ?_, fun hk => ?_⟩
  · simp [hcommas, hcommas', Ne.symm hcomma]
  · obtain ⟨hn, hm, ht⟩ := hquiet hk
    exact ((hown' hm).append (List.forall_mem_singleton.mpr ht)).append (hown hn)

/-- Where a production may come all tighter ones may. -/
theorem Production.Starts.tighter {n m : Nat} (h : (level n).Starts row) (hle : n ≤ m) :
    (level m).Starts row :=
  ⟨h.1, fun hm => h.2.1 (Nat.le_trans hle hm), fun hm => h.2.2 (Nat.le_trans hle hm)⟩

/-- The parentheses of a function have as many arguments as it takes. -/
theorem Builtin.mayClose_of_takes {f : Builtin} (hf : f.takes (argumentCount own) = true) :
    mayClose (some (.word f.name)) own = true := by
  cases f with
  | bound => cases hf
  | str | lcase | contains | strStarts | strEnds | regex => simpa [mayClose, accepts] using hf

/-- Without a comma there is one argument. -/
theorem argumentCount_of_not_mem (hne : own ≠ []) (h : .word "," ∉ own) :
    argumentCount own = 1 := by
  simp [argumentCount, hne, List.count_eq_zero_of_not_mem h]

/-- Behind a comma there is one argument more. -/
theorem argumentCount_append (hne' : own' ≠ []) (h : .word "," ∉ own) :
    argumentCount (own' ++ [.word ","] ++ own) = argumentCount own' + 1 := by
  simp [argumentCount, hne', List.count_eq_zero_of_not_mem h]

/-- What a production derives is taken wherever the production may come. -/
def Production.Takes (p : Production) (ts : List Token) : Prop :=
  ∀ row, p.Starts row → ∃ own, Passes row ts own ∧ p.Adds own

namespace Production.Takes

variable {n m k : Nat}

/-- What is taken on a level is taken on the looser one below. -/
theorem tighter (h : (level (n + 1)).Takes ts) : (level n).Takes ts := by
  intro row hstarts
  obtain ⟨own, hpasses, hne, hcomma, hquiet⟩ := h row (hstarts.tighter (Nat.le_succ n))
  exact ⟨own, hpasses, hne, hcomma, fun hle => hquiet (Nat.le_succ_of_le hle)⟩

/-- `||` and `&&` let another relation come. -/
theorem junction {w : String} (hw : w ∈ ["||", "&&"]) (hn : k ≤ n) (hk : k ≤ 3)
    (left : (level n).Takes ts) (right : (level m).Takes us) :
    (level k).Takes (ts ++ .word w :: us) := by
  intro row hstarts
  have hword : (Token.isPlain (.word w) = true ∧ compares (.word w) = false) ∧
      Builtin.ofName? w = none ∧ w ≠ "!" ∧ separates (.word w) = true ∧
      Token.word w ≠ .word "," := by
    revert w
    decide
  obtain ⟨hplain, hname, hneg, hseparates, hcomma⟩ := hword
  obtain ⟨own, hleft, hown⟩ := left row (hstarts.tighter hn)
  obtain ⟨own', hright, hown'⟩ := right _ (starts_word w hname hneg (.inr hseparates) (own ++ row))
  exact ⟨_, hleft.append (hright.cons hplain), adds_operator hown hown' hcomma (by omega)⟩

/-- A sum leaves a row without relations without them. -/
theorem sum_row (left : numeric.Takes ts) (hstarts : relational.Starts row) :
    ∃ own, Passes row ts own ∧ numeric.Adds own ∧ compared (own ++ row) = false := by
  obtain ⟨own, hleft, hown⟩ := left row (hstarts.tighter (by decide))
  exact ⟨own, hleft, hown, ((hown.2.2 (by decide)).compared row).trans (hstarts.2.2 (by decide))⟩

/-- A comparison is taken between operands that do not compare. -/
theorem comparison {op : BinaryOp} (left : numeric.Takes ts) (right : numeric.Takes us) :
    relational.Takes (ts ++ .word op.sign :: us) := by
  intro row hstarts
  obtain ⟨hplain, hname, hneg, hcomma⟩ := op.sign_isPlain
  obtain ⟨own, hleft, hown, hcompared⟩ := left.sum_row hstarts
  obtain ⟨own', hright, hown'⟩ := right _ (starts_word op.sign hname hneg (.inl (by decide)) _)
  exact ⟨_, hleft.append ((Passes.one hplain fun _ => hcompared).append hright),
    adds_operator hown hown' (by simpa using hcomma) (by omega)⟩

/-- A list in parentheses, perhaps behind a word that negates. -/
theorem member (words : List Token) (hwords : ∀ t ∈ words, t.isMute = true)
    (left : numeric.Takes ts) (list : (arguments n).Takes us) :
    relational.Takes (ts ++ (words ++ .word "IN" :: parenthesized us)) := by
  intro row hstarts
  obtain ⟨own, hleft, hown, hcompared⟩ := left.sum_row hstarts
  obtain ⟨own', hlist, -⟩ := list [] (starts_nil _)
  have hrow : compared (words.reverse ++ (own ++ row)) = false :=
    ((Quiet.of_mute hwords).compared _).trans hcompared
  have hin := (Passes.one (t := .word "IN") (by decide) fun _ => hrow).append
    (hlist.parenthesized ((noCall_word (by decide) _).mayClose own'))
  refine ⟨_, hleft.append ((Passes.mute hwords _).append hin), by simp, ?_, by omega⟩
  simpa [hown.2.1] using (Quiet.of_mute hwords).not_mem_comma

/-- An arithmetic sign is taken between its operands. -/
theorem arithmetic {sign : String} (hsign : sign ∈ ["+", "-", "*", "/"]) (hn : 4 ≤ n) (hm : 4 ≤ m)
    (left : (level n).Takes ts) (right : (level m).Takes us) :
    (level n).Takes (ts ++ .word sign :: us) := by
  intro row hstarts
  obtain ⟨hmute, hname, hneg⟩ := arithmetic_isMute hsign
  obtain ⟨⟨-, hcompares⟩, hseparates⟩ := Token.isMute_iff.mp hmute
  obtain ⟨own, hleft, hown⟩ := left row hstarts
  obtain ⟨own', hright, hown'⟩ := right _ (starts_word sign hname hneg (.inl hm) (own ++ row))
  refine ⟨_, hleft.append (hright.note hmute), adds_operator hown hown' ?_ fun _ =>
    ⟨hn, hm, hcompares, hseparates⟩⟩
  rintro ⟨⟩
  cases hseparates

theorem unary {sign : String} (hsign : sign ∈ ["!", "+", "-"]) (operand : primary.Takes ts) :
    Production.unary.Takes (.word sign :: ts) := by
  intro row hstarts
  have hword : Builtin.ofName? sign = none ∧
      ∀ t ∈ [Token.word sign], compares t = false ∧ separates t = false := by
    revert sign
    decide
  obtain ⟨hname, hquiet⟩ := hword
  have hsigned : Passes row [.word sign] [.word sign] := by
    by_cases hneg : sign = "!"
    · exact hneg ▸ .negation (hstarts.2.1 (by decide))
    · have hsum := List.mem_append_left ["*", "/"] ((List.mem_cons.mp hsign).resolve_left hneg)
      exact .mute (List.forall_mem_singleton.mpr (arithmetic_isMute hsum).1) row
  -- A primary expression may come behind `!`, too.
  obtain ⟨own, hpasses, hne, -, hown⟩ := operand (.word sign :: row)
    ⟨noCall_word hname row, nofun, nofun⟩
  have hall := (hown (by decide)).append hquiet
  exact ⟨_, hsigned.append hpasses, by simp, hall.not_mem_comma, fun _ => hall⟩

/-- What is only noted makes a primary expression. -/
theorem mute (hne : ts ≠ []) (h : ∀ t ∈ ts, t.isMute = true) : (level n).Takes ts := by
  intro row _
  have hquiet := Quiet.of_mute h
  exact ⟨_, .mute h row, by simpa using hne, hquiet.not_mem_comma, fun _ => hquiet⟩

/-- A constraint is taken as an operand. -/
theorem constraint (h : Production.constraint.Takes ts) : primary.Takes ts := by
  intro row hstarts
  obtain ⟨own, hpasses, hne, hquiet⟩ := h row hstarts.1
  exact ⟨own, hpasses, hne, hquiet.not_mem_comma, fun _ => hquiet⟩

/-- An expression in parentheses is taken. -/
theorem parenthesized (h : expression.Takes ts) :
    Production.constraint.Takes (parenthesized ts) := by
  intro row hstarts
  obtain ⟨own, hpasses, -⟩ := h [] (starts_nil _)
  exact ⟨_, hpasses.parenthesized (hstarts.mayClose own), by simp, quiet_parenthesis⟩

/-- The name of a function in front of what it takes. -/
theorem call (ht : t.isMute = true) (h : Passes [] ts own) (hclose : mayClose (some t) own = true) :
    Production.constraint.Takes (t :: Sparql.parenthesized ts) := by
  intro row _
  have harguments : Passes (t :: row) (Sparql.parenthesized ts) [.word ")"] :=
    h.parenthesized hclose
  exact ⟨_, harguments.note ht, by simp, quiet_parenthesis.append (.one ht)⟩

/-- Words in front of a group. -/
theorem braced (front : List Token) (hfront : ∀ t ∈ front, t.isMute = true)
    (h : group.Takes ts) :
    Production.constraint.Takes (front ++ block ts) := by
  intro row _
  obtain ⟨own, hpasses, -⟩ := h [] trivial
  exact ⟨_, hpasses.braced hfront row, by simp, quiet_brace.append (.of_mute hfront)⟩

theorem noArgument : (arguments 0).Takes [] :=
  fun row _ => ⟨[], .nil row, rfl⟩

theorem lastArgument (h : expression.Takes ts) : (arguments 1).Takes ts := by
  intro row hstarts
  obtain ⟨own, hpasses, hne, hcomma, -⟩ :=
    h row ⟨hstarts.1, fun _ => hstarts.2.1, fun _ => hstarts.2.2⟩
  exact ⟨own, hpasses, argumentCount_of_not_mem hne hcomma⟩

/-- An argument in front of others is taken with the comma behind it. -/
theorem argument (h : expression.Takes ts) (rest : (arguments (n + 1)).Takes us) :
    (arguments (n + 2)).Takes (ts ++ .word "," :: us) := by
  intro row hstarts
  obtain ⟨own, hpasses, hne, hcomma, -⟩ :=
    h row ⟨hstarts.1, fun _ => hstarts.2.1, fun _ => hstarts.2.2⟩
  obtain ⟨own', hrest, hown'⟩ := rest (.word "," :: (own ++ row))
    ⟨noCall_word (by decide) _, by simp, by simp [compared, separates]⟩
  have hne' : own' ≠ [] := by
    rintro rfl
    cases hown'
  refine ⟨_, hpasses.append (hrest.cons (by decide)), ?_⟩
  exact (argumentCount_append hne' hcomma).trans (congrArg (· + 1) hown')

/-- Words in front of a group, as a pattern. -/
theorem pattern (front : List Token) (hfront : ∀ t ∈ front, t.isMute = true)
    (h : group.Takes ts) :
    Production.pattern.Takes (front ++ block ts) := by
  intro row _
  obtain ⟨own, hpasses, -⟩ := h [] trivial
  exact ⟨_, hpasses.braced hfront row, trivial⟩

theorem filter (h : Production.constraint.Takes ts) :
    Production.pattern.Takes (.word "FILTER" :: ts) := by
  intro row _
  obtain ⟨own, hpasses, -⟩ := h _ (noCall_word (s := "FILTER") (by decide) row)
  exact ⟨_, hpasses.note (by decide), trivial⟩

theorem bind (v : Var) (h : expression.Takes ts) :
    Production.pattern.Takes
      (.word "BIND" :: Sparql.parenthesized (ts ++ [.word "AS", .variable v])) := by
  intro row _
  obtain ⟨own, hpasses, -⟩ := h [] (starts_nil _)
  have hmute : ∀ t ∈ [Token.word "AS", .variable v], t.isMute = true := by
    simp [show Token.isMute (.word "AS") = true by decide]
  have hclose := (noCall_word (s := "BIND") (by decide) row).mayClose
  exact ⟨_, ((hpasses.append (.mute hmute _)).parenthesized (hclose _)).note (by decide), trivial⟩

end Production.Takes

/-! ## What derives is scanned -/

/-- No term is the name of a function. -/
theorem Term.noCall (t : Term) (row : List Token) : NoCall (t.tokens.reverse ++ row) := by
  cases t with
  | literal l =>
      cases l with
      | boolean b => cases b <;> exact noCall_word (by decide) row
      | plain | tagged | typed => simp [tokens, Literal.tokens, noCall_of_not_word]
  | var | iri | blank => simp [tokens, noCall_of_not_word]

/-- Paths pass wherever no call opens. -/
theorem PathPhrase.passes {primary : Bool} {p : Path} (h : PathPhrase .tokens primary ts p) :
    ∀ {row}, NoCall row → ∃ own, Passes row ts own := by
  induction h with
  | iri i => exact fun _ => ⟨_, .mute (by simp [PathSigns.tokens]) _⟩
  | parenthesized _ ih =>
      intro row hrow
      obtain ⟨own, hpasses⟩ : ∃ own, Passes [] _ own := ih noCall_nil
      exact ⟨_, hpasses.parenthesized (hrow.mayClose own)⟩
  | inverse _ ih =>
      intro row _
      obtain ⟨own, hpasses⟩ := ih (noCall_word (s := "^") (by decide) row)
      exact ⟨_, hpasses.cons (by decide)⟩
  | zeroOrMore _ ih =>
      intro row hrow
      obtain ⟨own, hpasses⟩ := ih hrow
      exact ⟨_, hpasses.append (.mute (by decide) _)⟩
  | primary _ ih => exact ih

/-- Triples pass everywhere. -/
theorem TriplesPhrase.passes {paths : Bool} (h : TriplesPhrase paths ts) :
    ∀ row, ∃ own, Passes row ts own := by
  induction h with
  | nil => exact fun row => ⟨[], .nil row⟩
  | @cons subject object verb _ phrase _ ih =>
      intro row
      have hsubject := Passes.mute subject.mute row
      obtain ⟨own, hverb⟩ : ∃ own, Passes (subject.tokens.reverse ++ row) verb own := by
        cases phrase with
        | var | iri => exact ⟨_, .mute (by simp) _⟩
        | path _ phrase => exact phrase.passes (subject.noCall row)
      have hobject := (hsubject.append hverb).append (Passes.mute object.mute _)
      obtain ⟨own', hrest⟩ := ih (.word "." :: _)
      exact ⟨_, hobject.append (hrest.cons (by decide))⟩

/-- Triples are taken in front of patterns. -/
theorem TriplesPhrase.takes {paths : Bool} (h : TriplesPhrase paths ts)
    (rest : Production.patterns.Takes us) : Production.patterns.Takes (ts ++ us) := by
  intro row _
  obtain ⟨own, hphrase⟩ := h.passes row
  obtain ⟨own', hrest, -⟩ := rest _ trivial
  exact ⟨_, hphrase.append hrest, trivial⟩

/-- A selection ends neither with `SELECT` nor with `DISTINCT`. -/
theorem Selection.last (h : Selection ts) :
    ∃ t front, ts.reverse = t :: front ∧ t ≠ .word "SELECT" ∧ t ≠ .word "DISTINCT" := by
  cases h with
  | all => exact ⟨_, [], rfl, by decide, by decide⟩
  | vars v vs =>
      cases hvars : (v :: vs).reverse with
      | nil => simp at hvars
      | cons w ws =>
          refine ⟨.variable w, ws.map .variable, ?_, by simp, by simp⟩
          rw [← List.map_reverse, hvars, List.map_cons]

/-- The head of a query passes, and a body may follow. -/
theorem Selection.passes (h : Selection ts) (distinct : Bool) (row : List Token) :
    ∃ own, Passes row (.word "SELECT" :: (if distinct then [.word "DISTINCT"] else []) ++ ts) own ∧
      (own ++ row).head? ≠ some (.word "SELECT") ∧
      (own ++ row).head? ≠ some (.word "DISTINCT") := by
  have hmute : ∀ t ∈ Token.word "SELECT" :: (if distinct then [.word "DISTINCT"] else []),
      t.isMute = true := by
    cases distinct <;> decide
  obtain ⟨t, front, hlast, hselect, hdistinct⟩ := h.last
  refine ⟨_, .mute (List.forall_mem_append.mpr ⟨hmute, h.mute⟩) row, ?_⟩
  rw [List.reverse_append, hlast]
  exact ⟨by simpa using hselect, by simpa using hdistinct⟩

/-- An order passes if its keys do. -/
theorem Passes.ordered (h : Passes (.word "BY" :: .word "ORDER" :: row) ts own) :
    ∃ own, Passes row (ordered ts) own := by
  unfold Sparql.ordered
  split
  next => exact ⟨[], .nil row⟩
  next => exact ⟨_, (h.note (by decide)).note (by decide)⟩

/-- A query is taken. -/
theorem Selection.takes {distinct : Bool} {limit offset : Option Nat} {vs : List Token}
    (selection : Selection ts) (body : Production.group.Takes us)
    (order : Production.keys.Takes vs) :
    Production.group.Takes (.word "SELECT" :: (if distinct then [.word "DISTINCT"] else []) ++ ts ++
      .word "WHERE" :: block us ++ ordered vs ++ cut "LIMIT" limit ++ cut "OFFSET" offset) := by
  intro row _
  obtain ⟨own, hhead, hselect, hdistinct⟩ := selection.passes distinct row
  obtain ⟨own', hbody, -⟩ := body [] trivial
  have hgroup := hhead.append ((Passes.body hselect hdistinct).append (hbody.block _))
  obtain ⟨own'', hkeys, -⟩ := order _ trivial
  obtain ⟨own₃, horder⟩ := hkeys.ordered
  have hlimit := (hgroup.append horder).append (.mute (cut_mute "LIMIT" (by decide) limit) _)
  exact ⟨_, hlimit.append (.mute (cut_mute "OFFSET" (by decide) offset) _), trivial⟩

/-- A key of an order is taken. -/
theorem Production.Takes.key (descending : Bool) (h : Production.expression.Takes ts)
    (rest : Production.keys.Takes us) :
    Production.keys.Takes
      (.word (if descending then "DESC" else "ASC") :: Sparql.parenthesized ts ++ us) := by
  intro row _
  have hname : Builtin.ofName? (if descending then "DESC" else "ASC") = none ∧
      Token.isMute (.word (if descending then "DESC" else "ASC")) = true := by
    cases descending <;> decide
  obtain ⟨own, hpasses, -⟩ := h [] (Production.starts_nil _)
  obtain ⟨own', hrest, -⟩ := rest _ trivial
  have hclose := (noCall_word hname.1 row).mayClose own
  exact ⟨_, ((hpasses.parenthesized hclose).note hname.2).append hrest, trivial⟩

/-- **What derives is scanned** wherever it may stand. -/
theorem Derives.takes {p : Production} (h : Derives p ts) : p.Takes ts := by
  induction h with
  | or _ _ left right => exact .junction (by decide) (Nat.le_refl 1) (by decide) left right
  | and _ _ left right => exact .junction (by decide) (Nat.le_refl 2) (by decide) left right
  | comparison _ _ _ left right => exact left.comparison right
  | member _ _ left list => exact .member [] (by simp) left list
  | notMember _ _ left list => exact .member [.word "NOT"] (by decide) left list
  | sum hsign _ _ left right =>
      exact left.arithmetic (List.mem_append_left ["*", "/"] hsign) (by decide) (by decide) right
  | product hsign _ _ left right =>
      exact left.arithmetic (List.mem_append_right ["+", "-"] hsign) (by decide) (by decide) right
  | unary hsign _ operand => exact .unary hsign operand
  | tighter _ h => exact h.tighter
  | var v => exact .mute (by simp) (by simp)
  | iri i => exact .mute (by simp) (by simp)
  | literal l => exact .mute (by cases l <;> simp [Literal.tokens]) l.mute
  | constraint _ h => exact h.constraint
  | parenthesized _ h => exact h.parenthesized
  | bound v =>
      have hvar : Passes [] [.variable v] [.variable v] := .mute (by simp) []
      exact .call (by decide) hvar rfl
  | @call f n ts hf _ h =>
      obtain ⟨own, hpasses, hown⟩ := h [] (Production.starts_nil _)
      exact .call f.name_isMute hpasses (Builtin.mayClose_of_takes (hown.symm ▸ hf))
  | function i _ h =>
      obtain ⟨own, hpasses, -⟩ := h [] (Production.starts_nil _)
      exact .call (Token.isMute_iri i) hpasses rfl
  | exist _ h => exact .braced [.word "EXISTS"] (by decide) h
  | notExist _ h => exact .braced [.word "NOT", .word "EXISTS"] (by decide) h
  | noArgument => exact .noArgument
  | lastArgument _ h => exact h.lastArgument
  | argument _ _ h rest => exact h.argument rest
  | optional _ h => exact .pattern [.word "OPTIONAL"] (by decide) h
  | filter _ h => exact h.filter
  | bind v _ h => exact h.bind v
  | nested _ h => exact .pattern [] (by simp) h
  | service endpoint _ h =>
      exact .pattern [.word "SERVICE", .iri endpoint] (by simp; decide) h
  | silentService endpoint _ h =>
      exact .pattern [.word "SERVICE", .word "SILENT", .iri endpoint] (by simp; decide) h
  | noPattern => exact fun row _ => ⟨[], .nil row, trivial⟩
  | triples phrase _ rest => exact phrase.takes rest
  | cons _ _ h rest =>
      intro row _
      obtain ⟨own, hpattern, -⟩ := h row trivial
      obtain ⟨own', hrest, -⟩ := rest _ trivial
      exact ⟨_, hpattern.append hrest, trivial⟩
  | patterns _ h => exact h
  | select _ _ _ selection _ _ body order => exact selection.takes body order
  | noKey => exact fun row _ => ⟨[], .nil row, trivial⟩
  | key descending _ _ h rest => exact h.key descending rest

end ObjectGraph.Sparql
