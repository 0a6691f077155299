import ObjectGraph.Proofs.Sparql.Triples

/-!
# The productions of expressions

`Derives` is the grammar of SPARQL for expressions and for the groups in them.  Expressions
have seven levels, and not all operators may follow each other there: `||`, `&&` and the
signs of arithmetic take an expression of their own level on the left, but a comparison takes
a sum on either side, so that there is one comparison at most, and what stands behind `!` is
a primary expression, so that there is no second `!`.  Functions have the number of arguments
that they take.  Groups are given in the forms that are written: triples one by one, and of
the other patterns those that the printer knows.

Whether an expression has a text of this grammar can be seen from it (`IsGrammatical`), and
where it has one it is written as that text (`Expression.derives`).
-/

namespace ObjectGraph.Sparql

/-! ## The grammar -/

/-- Whether an operator compares. -/
def BinaryOp.isComparison : BinaryOp → Bool
  | .and | .or => false
  | .eq | .ne | .lt | .le | .gt | .ge => true

/-- The operators that compare are those of the third level. -/
theorem BinaryOp.isComparison_iff {op : BinaryOp} :
    op.isComparison = true ↔ op.precedence = 3 := by
  cases op <;> decide

/-- Whether a function takes a number of expressions; `BOUND` takes a variable instead. -/
def Builtin.takes : Builtin → Nat → Bool
  | .bound, _ => false
  | .str, n | .lcase, n => n == 1
  | .contains, n | .strStarts, n | .strEnds, n => n == 2
  | .regex, n => n == 2 || n == 3

/-- The parts of an expression and of a group. -/
inductive Production where
  /-- An expression at least as tight as the operators of a level. -/
  | level (n : Nat)
  /-- An expression that may stand for itself behind `FILTER`. -/
  | constraint
  /-- Expressions apart by commas. -/
  | arguments (count : Nat)
  | pattern
  | patterns
  /-- What stands between the braces of a group. -/
  | group
  /-- The keys of an order. -/
  | keys

namespace Production

abbrev expression : Production := .level 1
abbrev conjunction : Production := .level 2
abbrev relational : Production := .level 3
abbrev numeric : Production := .level 4
abbrev multiplicative : Production := .level 5
abbrev unary : Production := .level 6
abbrev primary : Production := .level 7

end Production

/-- What a query selects. -/
inductive Selection : List Token → Prop
  | all : Selection [.word "*"]
  | vars (v : Var) (vs : List Var) : Selection ((v :: vs).map .variable)

/-- The keys of an order behind its words. -/
def ordered (keys : List Token) : List Token :=
  if keys.isEmpty then [] else .word "ORDER" :: .word "BY" :: keys

/-- A number of solutions behind its word. -/
def cut (word : String) : Option Nat → List Token
  | none => []
  | some n => [.word word, .word n.repr]

open Production in
/-- The tokens that a production derives. -/
inductive Derives : Production → List Token → Prop
  | or {ts us : List Token} (left : Derives expression ts) (right : Derives conjunction us) :
      Derives expression (ts ++ .word "||" :: us)
  | and {ts us : List Token} (left : Derives conjunction ts) (right : Derives relational us) :
      Derives conjunction (ts ++ .word "&&" :: us)
  | comparison {op : BinaryOp} {ts us : List Token} (hop : op.isComparison = true)
      (left : Derives numeric ts) (right : Derives numeric us) :
      Derives relational (ts ++ .word op.sign :: us)
  | member {n : Nat} {ts us : List Token} (left : Derives numeric ts)
      (list : Derives (arguments n) us) :
      Derives relational (ts ++ .word "IN" :: parenthesized us)
  | notMember {n : Nat} {ts us : List Token} (left : Derives numeric ts)
      (list : Derives (arguments n) us) :
      Derives relational (ts ++ .word "NOT" :: .word "IN" :: parenthesized us)
  | sum {sign : String} {ts us : List Token} (hsign : sign ∈ ["+", "-"])
      (left : Derives numeric ts) (right : Derives multiplicative us) :
      Derives numeric (ts ++ .word sign :: us)
  | product {sign : String} {ts us : List Token} (hsign : sign ∈ ["*", "/"])
      (left : Derives multiplicative ts) (right : Derives unary us) :
      Derives multiplicative (ts ++ .word sign :: us)
  | unary {sign : String} {ts : List Token} (hsign : sign ∈ ["!", "+", "-"])
      (operand : Derives primary ts) : Derives unary (.word sign :: ts)
  | tighter {n : Nat} {ts : List Token} (h : Derives (level (n + 1)) ts) : Derives (level n) ts
  | var (v : Var) : Derives primary [.variable v]
  | iri (i : String) : Derives primary [.iri i]
  | literal (l : Literal) : Derives primary l.tokens
  | constraint {ts : List Token} (h : Derives constraint ts) : Derives primary ts
  | parenthesized {ts : List Token} (h : Derives expression ts) :
      Derives constraint (parenthesized ts)
  | bound (v : Var) : Derives constraint (.word "BOUND" :: parenthesized [.variable v])
  | call {f : Builtin} {n : Nat} {ts : List Token} (hf : f.takes n = true)
      (h : Derives (arguments n) ts) : Derives constraint (.word f.name :: parenthesized ts)
  | function (i : String) {n : Nat} {ts : List Token} (h : Derives (arguments n) ts) :
      Derives constraint (.iri i :: parenthesized ts)
  | exist {ts : List Token} (h : Derives group ts) : Derives constraint (.word "EXISTS" :: block ts)
  | notExist {ts : List Token} (h : Derives group ts) :
      Derives constraint (.word "NOT" :: .word "EXISTS" :: block ts)
  | noArgument : Derives (arguments 0) []
  | lastArgument {ts : List Token} (h : Derives expression ts) : Derives (arguments 1) ts
  | argument {n : Nat} {ts us : List Token} (h : Derives expression ts)
      (rest : Derives (arguments (n + 1)) us) :
      Derives (arguments (n + 2)) (ts ++ .word "," :: us)
  | optional {ts : List Token} (h : Derives group ts) :
      Derives pattern (.word "OPTIONAL" :: block ts)
  | filter {ts : List Token} (h : Derives constraint ts) : Derives pattern (.word "FILTER" :: ts)
  | bind {ts : List Token} (v : Var) (h : Derives expression ts) :
      Derives pattern (.word "BIND" :: parenthesized (ts ++ [.word "AS", .variable v]))
  | nested {ts : List Token} (h : Derives group ts) : Derives pattern (block ts)
  | service (endpoint : String) {ts : List Token} (h : Derives group ts) :
      Derives pattern (.word "SERVICE" :: .iri endpoint :: block ts)
  | silentService (endpoint : String) {ts : List Token} (h : Derives group ts) :
      Derives pattern (.word "SERVICE" :: .word "SILENT" :: .iri endpoint :: block ts)
  | noPattern : Derives patterns []
  | triples {ts us : List Token} (phrase : TriplesPhrase true ts) (rest : Derives patterns us) :
      Derives patterns (ts ++ us)
  | cons {ts us : List Token} (h : Derives pattern ts) (rest : Derives patterns us) :
      Derives patterns (ts ++ us)
  | patterns {ts : List Token} (h : Derives patterns ts) : Derives group ts
  | select {ts us vs : List Token} (distinct : Bool) (limit offset : Option Nat)
      (selection : Selection ts) (body : Derives group us) (order : Derives keys vs) :
      Derives group (.word "SELECT" :: (if distinct then [.word "DISTINCT"] else []) ++ ts ++
        .word "WHERE" :: block us ++ ordered vs ++ cut "LIMIT" limit ++ cut "OFFSET" offset)
  | noKey : Derives keys []
  | key {ts us : List Token} (descending : Bool) (h : Derives expression ts)
      (rest : Derives keys us) :
      Derives keys (.word (if descending then "DESC" else "ASC") :: parenthesized ts ++ us)

/-! ## Expressions that have a text -/

/-- Whether an expression compares two others. -/
def Expression.isComparison : Expression → Bool
  | .binary op _ _ => op.isComparison
  | _ => false

/-- Whether an expression is the negation of another one. -/
def Expression.isNegation : Expression → Bool
  | .not _ => true
  | _ => false

/-- Whether a function takes a list of expressions. -/
def Builtin.fits (f : Builtin) (args : List Expression) : Prop :=
  match f with
  | .bound => ∃ v, args = [.var v]
  | f => f.takes args.length = true

mutual

/-- No comparison stands on the left of another one and no negation behind `!`, functions
have the arguments that they take, and no subselect selects an empty list. -/
def Expression.IsGrammatical : Expression → Prop
  | .var _ | .literal _ | .iri _ => True
  | .binary op l r =>
    l.IsGrammatical ∧ r.IsGrammatical ∧ ¬ (op.isComparison = true ∧ l.isComparison = true)
  | .not e => e.IsGrammatical ∧ e.isNegation = false
  | .call f args => f.fits args ∧ AreGrammatical args
  | .exist g | .notExist g => GroupIsGrammatical g

def AreGrammatical : List Expression → Prop
  | [] => True
  | e :: rest => e.IsGrammatical ∧ AreGrammatical rest

def Pattern.IsGrammatical : Pattern → Prop
  | .triples _ => True
  | .optional g | .group g | .service _ _ g => GroupIsGrammatical g
  | .filter e | .bind e _ => e.IsGrammatical
  | .subselect q => q.IsGrammatical

def GroupIsGrammatical : List Pattern → Prop
  | [] => True
  | p :: rest => p.IsGrammatical ∧ GroupIsGrammatical rest

def Select.IsGrammatical : Select → Prop
  | ⟨_, projection, body, ⟨orderBy, _, _⟩⟩ =>
    projection ≠ some [] ∧ GroupIsGrammatical body ∧ OrderIsGrammatical orderBy

def OrderIsGrammatical : List OrderCondition → Prop
  | [] => True
  | ⟨e, _⟩ :: rest => e.IsGrammatical ∧ OrderIsGrammatical rest

end

/-! ## What is written derives -/

/-- What derives on a level derives on all looser ones. -/
theorem Derives.loosen {n m : Nat} {ts : List Token} (h : Derives (.level n) ts) (hle : m ≤ n) :
    Derives (.level m) ts := by
  obtain ⟨k, rfl⟩ := Nat.exists_eq_add_of_le hle
  induction k with
  | zero => exact h
  | succ k ih => exact ih h.tighter (Nat.le_add_right _ _)

/-- The level of an expression as it is written. -/
def Expression.writtenLevel : Expression → Nat
  | .binary op _ _ => op.precedence
  | .not _ => 6
  | _ => 7

/-- The level of the operands of an operator. -/
def BinaryOp.operandLevel (op : BinaryOp) (onRight : Bool) : Nat :=
  if op.isComparison then 4 else if onRight then op.precedence + 1 else op.precedence

/-- No operator asks for operands tighter than the fourth level. -/
theorem BinaryOp.operandLevel_le (op : BinaryOp) (onRight : Bool) :
    op.operandLevel onRight ≤ 4 := by
  cases op <;> cases onRight <;> decide

/-- Levels are counted from one. -/
theorem Expression.one_le_writtenLevel (e : Expression) : 1 ≤ e.writtenLevel := by
  cases e with
  | binary op => exact op.loosest_le_precedence
  | not | var | literal | iri | call | exist | notExist => simp [writtenLevel]

/-- Only a comparison on the left of another one is too loose where it has no parentheses. -/
theorem Expression.operandLevel_le {e : Expression} {op : BinaryOp} {onRight : Bool}
    (h : e.needsParentheses op onRight = false)
    (hchain : onRight = false → ¬ (op.isComparison = true ∧ e.isComparison = true)) :
    op.operandLevel onRight ≤ e.writtenLevel := by
  cases e with
  | binary inner l r =>
      have hlevel := Expression.level_of_needsParentheses op onRight h
      have hinner : inner.precedence < 4 := inner.precedence_lt_tight
      simp only [isComparison, BinaryOp.isComparison_iff] at hchain
      simp only [BinaryOp.operandLevel, BinaryOp.isComparison_iff, writtenLevel]
      simp only [level] at hlevel
      split
      next hop =>
        cases onRight with
        | false => simp_all; omega
        | true => simp_all
      next => exact hlevel
  | not => exact Nat.le_trans (op.operandLevel_le onRight) (by decide : 4 ≤ 6)
  | var | literal | iri | call | exist | notExist =>
      exact Nat.le_trans (op.operandLevel_le onRight) (by decide : 4 ≤ 7)

namespace Derives

variable {ts us : List Token}

/-- A constraint is an expression of every level. -/
theorem primary (h : Derives .constraint ts) {n : Nat} (hn : n ≤ 7) : Derives (.level n) ts :=
  (Derives.constraint h).loosen hn

/-- An operand derives where it is tight enough or has parentheses. -/
theorem operand {e : Expression} (h : Derives (.level e.writtenLevel) (solid e.tokens))
    {n : Nat} (condition : Bool) (hn : n ≤ 7)
    (hcondition : condition = false → n ≤ e.writtenLevel) :
    Derives (.level n) (solid (parenthesizedIf condition e.tokens)) := by
  cases condition with
  | false => exact h.loosen (hcondition rfl)
  | true =>
      rw [parenthesizedIf, if_pos rfl, solid_parenthesized]
      exact (Derives.parenthesized (h.loosen e.one_le_writtenLevel)).primary hn

/-- An operator derives between operands of its levels. -/
theorem binary (op : BinaryOp) (left : Derives (.level (op.operandLevel false)) ts)
    (right : Derives (.level (op.operandLevel true)) us) :
    Derives (.level op.precedence) (ts ++ .word op.sign :: us) := by
  cases op with
  | and => exact .and left right
  | or => exact .or left right
  | eq | ne | lt | le | gt | ge => exact .comparison rfl left right

/-- The operand of an operator on either side. -/
theorem side {e : Expression} (h : Derives (.level e.writtenLevel) (solid e.tokens))
    (op : BinaryOp) (onRight : Bool)
    (hchain : onRight = false → ¬ (op.isComparison = true ∧ e.isComparison = true)) :
    Derives (.level (op.operandLevel onRight))
      (solid (parenthesizedIf (e.needsParentheses op onRight) e.tokens)) := by
  have hop : op.operandLevel onRight ≤ 7 := Nat.le_trans (op.operandLevel_le onRight) (by decide)
  exact h.operand _ hop fun hnone => Expression.operandLevel_le hnone hchain

/-- The operand of a negation is a primary expression if it is no negation. -/
theorem negated {e : Expression} (h : Derives (.level e.writtenLevel) (solid e.tokens))
    (he : e.isNegation = false) :
    Derives .primary (solid (parenthesizedIf e.isBinary e.tokens)) := by
  refine h.operand _ (Nat.le_refl _) fun hnone => ?_
  cases e with
  | binary => cases hnone
  | not => cases he
  | var | literal | iri | call | exist | notExist => exact Nat.le_refl _

/-- A call derives if the function takes its arguments; `BOUND` takes a variable. -/
theorem callOf {f : Builtin} {args : List Expression} (hf : f.fits args)
    (h : Derives (.arguments args.length) ts) (hbound : ∀ v, args = [.var v] → ts = [.variable v]) :
    Derives .constraint (.word f.name :: Sparql.parenthesized ts) := by
  cases f with
  | bound =>
      obtain ⟨v, rfl⟩ := hf
      rw [hbound v rfl]
      exact .bound v
  | str | lcase | contains | strStarts | strEnds | regex => exact .call hf h

/-- Patterns in front of others. -/
theorem append_patterns (h : Derives .patterns ts) (h' : Derives .patterns us) :
    Derives .patterns (ts ++ us) := by
  generalize hp : Production.patterns = p at h
  induction h with
  | noPattern => exact h'
  | triples phrase _ ih =>
      rw [List.append_assoc]
      exact .triples phrase (ih hp)
  | cons h _ _ ih =>
      rw [List.append_assoc]
      exact .cons h (ih hp)
  | _ => cases hp

/-- A pattern alone. -/
theorem only (h : Derives .pattern ts) : Derives .patterns ts :=
  List.append_nil ts ▸ h.cons .noPattern

/-- What stands between braces is a pattern, a subselect too. -/
theorem braces (h : Derives .group ts) : Derives .patterns (block ts) :=
  h.nested.only

end Derives

/-- The head of a query is `SELECT` and what is selected. -/
theorem selection_headTokens (distinct : Bool) {projection : Option (List Var)}
    (h : projection ≠ some []) :
    ∃ ts, Selection ts ∧ solid (headTokens distinct projection) =
      .word "SELECT" :: (if distinct then [.word "DISTINCT"] else []) ++ ts := by
  cases projection with
  | none => exact ⟨_, .all, by cases distinct <;> simp [headTokens]⟩
  | some vs =>
      cases vs with
      | nil => exact (h rfl).elim
      | cons v vs =>
          have hvars : vs.flatMap (fun v => [Token.variable v]) = vs.map .variable :=
            List.map_eq_flatMap.symm
          exact ⟨_, .vars v vs, by cases distinct <;> simp [headTokens, List.flatMap_map, hvars]⟩

/-- The modifiers of a query are its order, its limit and its offset. -/
theorem solid_modifierTokens (gap : String) (keys : List OrderCondition)
    (limit offset : Option Nat) :
    solid (modifierTokens gap (orderTokens keys) limit offset) =
      ordered ((orderTokens keys).flatMap solid) ++ cut "LIMIT" limit ++ cut "OFFSET" offset := by
  unfold modifierTokens
  cases keys with
  | nil => cases limit <;> cases offset <;> simp [orderTokens, ordered, cut]
  | cons key rest =>
      obtain ⟨e, descending⟩ := key
      cases limit <;> cases offset <;> simp [orderTokens, ordered, cut]

mutual

/-- A grammatical expression derives on the level that it is written on. -/
theorem Expression.derives_writtenLevel : ∀ {e : Expression}, e.IsGrammatical →
    Derives (.level e.writtenLevel) (solid e.tokens)
  | .var v, _ => .var v
  | .iri i, _ => .iri i
  | .literal l, _ => by
      rw [Expression.tokens, Literal.solid_tokens]
      exact .literal l
  | .binary op l r, h => by
      obtain ⟨hl, hr, hchain⟩ := h
      have hleft := (Expression.derives_writtenLevel hl).side op false fun _ => hchain
      have hright := (Expression.derives_writtenLevel hr).side op true nofun
      simpa [Expression.tokens, Expression.writtenLevel] using hleft.binary op hright
  | .not e, h => by
      obtain ⟨he, hnegation⟩ := h
      have hoperand := (Expression.derives_writtenLevel he).negated hnegation
      have hunary : Derives .unary (.word "!" :: _) := .unary List.mem_cons_self hoperand
      simpa [Expression.tokens, Expression.writtenLevel] using hunary
  | .call f args, h => by
      obtain ⟨hf, hargs⟩ := h
      have hcall := (AreGrammatical.derives hargs).callOf hf (by
        rintro v rfl
        simp [argumentTokens, List.intercalate, Expression.tokens])
      simpa [Expression.tokens, Expression.writtenLevel, solid_intercalate] using hcall.constraint
  | .exist g, h => by
      have hexist := Derives.exist (GroupIsGrammatical.derives_patterns h).patterns
      simpa [Expression.tokens, Expression.writtenLevel, groupSolid, block] using hexist.constraint
  | .notExist g, h => by
      have hexist := Derives.notExist (GroupIsGrammatical.derives_patterns h).patterns
      simpa [Expression.tokens, Expression.writtenLevel, groupSolid, block] using hexist.constraint

/-- The arguments of a call derive, apart by commas. -/
theorem AreGrammatical.derives : ∀ {args : List Expression}, AreGrammatical args →
    Derives (.arguments args.length)
      (List.intercalate [.word ","] ((argumentTokens args).map solid))
  | [], _ => .noArgument
  | [e], h => by
      have he := (Expression.derives_writtenLevel h.1).loosen e.one_le_writtenLevel
      simpa [argumentTokens, List.intercalate] using Derives.lastArgument he
  | e :: a :: rest, h => by
      have he := (Expression.derives_writtenLevel h.1).loosen e.one_le_writtenLevel
      have hall := Derives.argument he (AreGrammatical.derives h.2)
      simpa [argumentTokens, List.intercalate_cons_cons] using hall

/-- A grammatical pattern derives. -/
theorem Pattern.derives : ∀ {p : Pattern}, p.IsGrammatical → Derives .patterns (solid p.tokens)
  | .triples ts, _ => by
      have htriples : TriplesPhrase true (ts.flatMap fun t => solid t.tokens) :=
        triplesPhrase fun _ _ _ => rfl
      simpa [Pattern.tokens, List.flatMap_map] using Derives.triples htriples .noPattern
  | .optional g, h => by
      have hgroup := Derives.optional (GroupIsGrammatical.derives_patterns h).patterns
      simpa [Pattern.tokens, block, groupSolid] using hgroup.only
  | .filter e, h => by
      have he := (Expression.derives_writtenLevel h).loosen e.one_le_writtenLevel
      cases e with
      | exist g =>
          have hg := (GroupIsGrammatical.derives_patterns h).patterns
          simpa [Pattern.tokens, block, groupSolid] using (Derives.filter (.exist hg)).only
      | notExist g =>
          have hg := (GroupIsGrammatical.derives_patterns h).patterns
          simpa [Pattern.tokens, block, groupSolid] using (Derives.filter (.notExist hg)).only
      | var | literal | iri | binary | not | call =>
          simpa [Pattern.tokens] using (Derives.filter (.parenthesized he)).only
  | .bind e v, h => by
      have he := (Expression.derives_writtenLevel h).loosen e.one_le_writtenLevel
      simpa [Pattern.tokens] using (Derives.bind v he).only
  | .group g, h => by
      have hgroup := (GroupIsGrammatical.derives_patterns h).patterns
      simpa [Pattern.tokens, block, groupSolid] using hgroup.braces
  | .service endpoint silent g, h => by
      have hgroup := (GroupIsGrammatical.derives_patterns h).patterns
      cases silent with
      | false => simpa [Pattern.tokens, block, groupSolid] using (hgroup.service endpoint).only
      | true => simpa [Pattern.tokens, block, groupSolid] using (hgroup.silentService endpoint).only
  | .subselect q, h => by
      simpa [Pattern.tokens, block] using (Select.derives h).braces

/-- The patterns of a grammatical group derive, one after the other. -/
theorem GroupIsGrammatical.derives_patterns : ∀ {g : List Pattern}, GroupIsGrammatical g →
    Derives .patterns (groupSolid g)
  | [], _ => .noPattern
  | p :: rest, h => by
      rw [groupSolid_cons]
      exact (Pattern.derives h.1).append_patterns (GroupIsGrammatical.derives_patterns h.2)

/-- A grammatical query derives as a group. -/
theorem Select.derives : ∀ {q : Select}, q.IsGrammatical → Derives .group (solid q.tokens)
  | ⟨distinct, projection, body, ⟨orderBy, limit, offset⟩⟩, h => by
      obtain ⟨hprojection, hbody, horder⟩ := h
      obtain ⟨ts, hselection, hhead⟩ := selection_headTokens distinct hprojection
      have hselect := Derives.select distinct limit offset hselection
        (GroupIsGrammatical.derives_patterns hbody).patterns (OrderIsGrammatical.derives horder)
      simpa [Select.tokens, hhead, solid_modifierTokens, block, groupSolid] using hselect

/-- The keys of a grammatical order derive. -/
theorem OrderIsGrammatical.derives : ∀ {keys : List OrderCondition}, OrderIsGrammatical keys →
    Derives .keys ((orderTokens keys).flatMap solid)
  | [], _ => .noKey
  | ⟨e, descending⟩ :: rest, h => by
      have he := (Expression.derives_writtenLevel h.1).loosen e.one_le_writtenLevel
      have hall := Derives.key descending he (OrderIsGrammatical.derives h.2)
      simpa [orderTokens] using hall

end

end ObjectGraph.Sparql
