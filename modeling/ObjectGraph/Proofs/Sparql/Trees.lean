import ObjectGraph.Proofs.Sparql.Grammar
import ObjectGraph.Proofs.Sparql.Paths

/-!
# Trees from tokens

The printer puts an operand between parentheses only where its operator asks for it.  That
is enough: an expression has a level, that of its operator if it has one between two
operands, and what the printer writes is a phrase of this level, gaps left out
(`Expression.phrase_tokens`).  An operand without parentheses has a level at which its
operator takes phrases (`Expression.level_of_needsParentheses`), and one with parentheses
can stand anywhere.

The groups of tests for existence are not looked into.  All that is needed is where they
end, and for this the braces of all that can stand in a group are matched
(`groupTokens_balanced`).  Since nothing can be read in two ways, tokens determine the
expression up to what those groups are read as (`rendering_determines_tree`).
-/

namespace ObjectGraph.Sparql

/-! ## Tokens without gaps -/

/-- Whether a token is a gap. -/
def Token.isGap : Token → Bool
  | .gap _ => true
  | _ => false

/-- The tokens that are no gaps. -/
def solid (ts : List Token) : List Token :=
  ts.filter fun t => !t.isGap

@[simp] theorem solid_nil : solid [] = [] := rfl

@[simp] theorem solid_append (ts us : List Token) : solid (ts ++ us) = solid ts ++ solid us :=
  List.filter_append ts us

@[simp] theorem solid_gap (s : String) (ts : List Token) : solid (.gap s :: ts) = solid ts := rfl

@[simp] theorem solid_word (s : String) (ts : List Token) :
    solid (.word s :: ts) = .word s :: solid ts := rfl

@[simp] theorem solid_variable (v : Var) (ts : List Token) :
    solid (.variable v :: ts) = .variable v :: solid ts := rfl

@[simp] theorem solid_iri (i : String) (ts : List Token) :
    solid (.iri i :: ts) = .iri i :: solid ts := rfl

/-- Gaps may be left out before or after parts are joined. -/
theorem solid_intercalate (separator : List Token) (parts : List (List Token)) :
    solid (List.intercalate separator parts) =
      List.intercalate (solid separator) (parts.map solid) := by
  induction parts with
  | nil => rfl
  | cons part rest ih =>
      cases rest with
      | nil => simp [List.intercalate]
      | cons next rest =>
          rw [List.intercalate_cons_cons, solid_append, solid_append, ih]
          simp [List.intercalate_cons_cons]

/-- Parts with nothing between them are joined. -/
theorem intercalate_nil (parts : List (List Token)) :
    List.intercalate [] parts = parts.flatten := by
  induction parts with
  | nil => rfl
  | cons part rest ih =>
      cases rest with
      | nil => simp [List.intercalate]
      | cons next rest => simpa [List.intercalate_cons_cons] using ih

/-- Gaps are all that stands between the pieces of a list. -/
@[simp] theorem solid_spaced (parts : List (List Token)) :
    solid (spaced parts) = parts.flatMap solid := by
  rw [spaced, solid_intercalate, List.flatMap_def]
  exact intercalate_nil _

/-- Without gaps a group is its parts between braces. -/
@[simp] theorem solid_braced (parts : List (List Token)) :
    solid (braced parts) = leftBrace :: parts.flatMap solid ++ [rightBrace] := by
  unfold braced
  split
  next h => simp [List.isEmpty_iff.mp h, leftBrace, rightBrace]
  next => simp [leftBrace, rightBrace]

/-- Gaps may be left out within parentheses. -/
@[simp] theorem solid_parenthesized (ts : List Token) :
    solid (parenthesized ts) = parenthesized (solid ts) := by
  simp [parenthesized]

/-- There is no gap in a literal. -/
@[simp] theorem Literal.solid_tokens (l : Literal) : solid l.tokens = l.tokens := by
  cases l <;> rfl

/-! ## Braces -/

namespace Balanced

variable {t : Token} {ts us : List Token} {s : String}

/-- Balanced tokens stay so behind each other. -/
@[simp] theorem append (h : Balanced ts) (h' : Balanced us) : Balanced (ts ++ us) := by
  induction h with
  | nil => exact h'
  | token hleft hright _ ih => exact ih.token hleft hright
  | braces inner _ _ ih =>
      rw [List.append_assoc, List.cons_append]
      exact inner.braces ih

/-- A token that is no brace changes no balance. -/
theorem cons_iff (hleft : t ≠ leftBrace) (hright : t ≠ rightBrace) :
    Balanced (t :: ts) ↔ Balanced ts := by
  refine ⟨fun h => ?_, fun h => h.token hleft hright⟩
  cases h with
  | token _ _ rest => exact rest
  | braces => exact absurd rfl hleft

/-- A word that is no brace changes no balance. -/
@[simp] theorem word_iff (hleft : s ≠ "\x7b") (hright : s ≠ "\x7d") :
    Balanced (.word s :: ts) ↔ Balanced ts :=
  cons_iff (by simpa [leftBrace] using hleft) (by simpa [rightBrace] using hright)

/-- Only words can be braces. -/
@[simp] theorem other_iff (hword : ∀ s, t ≠ .word s) : Balanced (t :: ts) ↔ Balanced ts :=
  cons_iff (hword _) (hword _)

/-- Balanced parts stay so with balanced tokens between them. -/
theorem intercalate {separator : List Token} {parts : List (List Token)}
    (hseparator : Balanced separator) (hparts : ∀ part ∈ parts, Balanced part) :
    Balanced (List.intercalate separator parts) := by
  induction parts with
  | nil => exact .nil
  | cons part rest ih =>
      cases rest with
      | nil => simpa [List.intercalate] using hparts
      | cons next rest =>
          rw [List.intercalate_cons_cons]
          have hrest := ih fun part hpart => hparts part (List.mem_cons_of_mem _ hpart)
          exact ((hparts part List.mem_cons_self).append hseparator).append hrest

@[simp] theorem spaced {parts : List (List Token)} (h : ∀ part ∈ parts, Balanced part) :
    Balanced (spaced parts) :=
  intercalate (by simp [nil]) h

/-- Balanced parts are balanced between braces. -/
@[simp] theorem braced {parts : List (List Token)} (h : ∀ part ∈ parts, Balanced part) :
    Balanced (braced parts) := by
  unfold Sparql.braced
  split
  · have hgap : Balanced [.gap " "] := by simp [nil]
    exact hgap.braces .nil
  · have hinner : Balanced (.gap " " :: Sparql.spaced parts ++ [.gap " "]) := by
      simp [nil, spaced h]
    simpa [leftBrace, rightBrace] using hinner.braces .nil

/-- Parentheses change no balance. -/
@[simp] theorem parenthesized (h : Balanced ts) : Balanced (parenthesized ts) := by
  simp [Sparql.parenthesized, h, nil]

@[simp] theorem parenthesizedIf {condition : Bool} (h : Balanced ts) :
    Balanced (parenthesizedIf condition ts) := by
  cases condition <;> simp [Sparql.parenthesizedIf, h]

/-- Leaving gaps out leaves braces balanced. -/
theorem solid (h : Balanced ts) : Balanced (solid ts) := by
  induction h with
  | nil => exact .nil
  | @token t ts hleft hright _ ih =>
      cases t with
      | gap => exact ih
      | _ => exact ih.token hleft hright
  | braces _ _ ih ih' =>
      rw [solid_append]
      exact ih.braces ih'

end Balanced

theorem Literal.balanced (l : Literal) : Balanced l.tokens := by
  cases l with
  | boolean b => cases b <;> simp [tokens, Balanced.nil]
  | _ => simp [tokens, Balanced.nil]

theorem Term.balanced (t : Term) : Balanced t.tokens := by
  cases t with
  | literal l => exact l.balanced
  | _ => simp [tokens, Balanced.nil]

theorem Path.balanced (p : Path) : Balanced p.tokens := by
  induction p with
  | iri => simp [tokens, Balanced.nil]
  | inverse p ih | zeroOrMore p ih => simp [tokens, ih, Balanced.nil]

theorem Predicate.balanced (p : Predicate) : Balanced p.tokens := by
  cases p with
  | path p => exact p.balanced
  | _ => simp [tokens, Balanced.nil]

theorem Triple.balanced (t : Triple) : Balanced t.tokens := by
  simp [tokens, t.subject.balanced, t.predicate.balanced, t.object.balanced, Balanced.nil]

/-- What is not a digit does not start a number. -/
theorem repr_ne {c : Char} (hc : c.isDigit = false) (n : Nat) (cs : List Char) :
    n.repr ≠ String.ofList (c :: cs) := by
  intro h
  have hlist := congrArg String.toList h
  rw [Nat.toList_repr, String.toList_ofList] at hlist
  have hdigit : c.isDigit = true :=
    Nat.isDigit_of_mem_toDigits (by decide) (by decide) (hlist ▸ List.mem_cons_self)
  rw [hc] at hdigit
  cases hdigit

/-- There is no brace in the head of a query. -/
theorem balanced_headTokens (distinct : Bool) (projection : Option (List Var)) :
    Balanced (headTokens distinct projection) := by
  refine .spaced ?_
  cases projection <;> cases distinct <;> simp [Balanced.nil]

/-- The modifiers of a query are balanced if the keys of its order are. -/
theorem balanced_modifierTokens (gap : String) {keys : List (List Token)}
    (limit offset : Option Nat) (h : ∀ key ∈ keys, Balanced key) :
    Balanced (modifierTokens gap keys limit offset) := by
  have hnumber : ∀ n : Nat, Balanced [.word n.repr] := fun n =>
    (Balanced.word_iff (repr_ne (by decide) n []) (repr_ne (by decide) n [])).mpr .nil
  have hkeys := Balanced.spaced h
  unfold modifierTokens
  refine .append (.append ?_ ?_) ?_
  · split <;> simp [Balanced.nil, hkeys]
  · cases limit <;> simp [Balanced.nil, hnumber]
  · cases offset <;> simp [Balanced.nil, hnumber]

/-- A filter puts parentheses around what it does not write as it stands. -/
theorem Pattern.balanced_filter {e : Expression} (h : Balanced e.tokens) :
    Balanced (Pattern.filter e).tokens := by
  cases e with
  | exist g | notExist g => simpa [Pattern.tokens, Expression.tokens] using h
  | var | literal | iri | binary | not | call => simpa [Pattern.tokens] using h.parenthesized

mutual

/-- Every brace of an expression has its counterpart. -/
theorem Expression.balanced : ∀ e : Expression, Balanced e.tokens
  | .var _ | .iri _ => by simp [Expression.tokens, Balanced.nil]
  | .literal l => l.balanced
  | .binary op l r => by
      cases op <;> simp [Expression.tokens, BinaryOp.sign, l.balanced, r.balanced]
  | .not e => by simp [Expression.tokens, e.balanced]
  | .call f args => by
      have hcomma : Balanced [.word ",", .gap " "] := by simp [Balanced.nil]
      have hargs := hcomma.intercalate (argumentTokens_balanced args)
      cases f <;> simp [Expression.tokens, Builtin.name, hargs]
  | .exist g | .notExist g => by
      simp [Expression.tokens, Balanced.braced (groupTokens_balanced g)]

theorem argumentTokens_balanced : ∀ args : List Expression,
    ∀ part ∈ argumentTokens args, Balanced part
  | [], _, h => by cases h
  | e :: rest, part, h => by
      rcases List.mem_cons.mp h with rfl | h
      · exact e.balanced
      · exact argumentTokens_balanced rest part h

/-- Every brace of a pattern has its counterpart. -/
theorem Pattern.balanced : ∀ p : Pattern, Balanced p.tokens
  | .triples ts => by
      simp [Pattern.tokens, Triple.balanced, Balanced.spaced]
  | .optional g => by simp [Pattern.tokens, Balanced.braced (groupTokens_balanced g)]
  | .filter e => Pattern.balanced_filter e.balanced
  | .bind e v => by
      have hinner : Balanced (e.tokens ++ [.gap " ", .word "AS", .gap " ", .variable v]) :=
        e.balanced.append (by simp [Balanced.nil])
      simpa [Pattern.tokens] using hinner.parenthesized
  | .group g => by simp [Pattern.tokens, Balanced.braced (groupTokens_balanced g)]
  | .service endpoint silent g => by
      cases silent <;> simp [Pattern.tokens, Balanced.braced (groupTokens_balanced g)]
  | .subselect q => by simp [Pattern.tokens, q.balanced]

theorem groupTokens_balanced : ∀ g : List Pattern, ∀ part ∈ groupTokens g, Balanced part
  | [], _, h => by cases h
  | p :: rest, part, h => by
      rw [groupTokens] at h
      split at h
      next => exact groupTokens_balanced rest part h
      next =>
        rcases List.mem_cons.mp h with rfl | h
        · exact p.balanced
        · exact groupTokens_balanced rest part h

theorem Select.balanced : ∀ q : Select, Balanced q.tokens
  | ⟨distinct, projection, body, ⟨orderBy, limit, offset⟩⟩ => by
      have hbody := Balanced.braced (groupTokens_balanced body)
      have hmodifiers := balanced_modifierTokens " " limit offset (orderTokens_balanced orderBy)
      simp [Select.tokens, balanced_headTokens, hbody, hmodifiers]

theorem orderTokens_balanced : ∀ keys : List OrderCondition,
    ∀ key ∈ orderTokens keys, Balanced key
  | [], _, h => by cases h
  | ⟨e, descending⟩ :: rest, key, h => by
      rcases List.mem_cons.mp h with rfl | h
      · cases descending <;> simp [e.balanced]
      · exact orderTokens_balanced rest key h

end

/-! ## Phrases -/

/-- The level of an expression as it is written. -/
def Expression.level : Expression → Nat
  | .binary op _ _ => op.precedence
  | _ => tight

/-- No expression is looser than the loosest level. -/
theorem Expression.loosest_le_level (e : Expression) : loosest ≤ e.level := by
  have htight : loosest ≤ tight := by decide
  cases e with
  | binary op => exact op.loosest_le_precedence
  | _ => exact htight

/-- The tokens between the braces of a group. -/
def groupSolid (g : List Pattern) : List Token :=
  (groupTokens g).flatMap solid

/-- The tokens within a group are balanced. -/
theorem balanced_groupSolid (g : List Pattern) : Balanced (groupSolid g) := by
  unfold groupSolid
  have h := groupTokens_balanced g
  generalize groupTokens g = parts at h ⊢
  induction parts with
  | nil => exact .nil
  | cons part rest ih =>
      rw [List.flatMap_cons]
      have hrest := ih fun part hpart => h part (List.mem_cons_of_mem _ hpart)
      exact (h part List.mem_cons_self).solid.append hrest

mutual

/-- An expression with the groups that its tests for existence are read with. -/
def Expression.regroup (groups : List Token → List Pattern) : Expression → Expression
  | .var v => .var v
  | .literal l => .literal l
  | .iri i => .iri i
  | .binary op l r => .binary op (l.regroup groups) (r.regroup groups)
  | .not e => .not (e.regroup groups)
  | .call f args => .call f (regroupArguments groups args)
  | .exist g => .exist (groups (groupSolid g))
  | .notExist g => .notExist (groups (groupSolid g))

def regroupArguments (groups : List Token → List Pattern) : List Expression → List Expression
  | [] => []
  | e :: rest => e.regroup groups :: regroupArguments groups rest

end

mutual

/-- The groups that an expression tests for existence. -/
def Expression.testedGroups : Expression → List (List Pattern)
  | .var _ | .literal _ | .iri _ => []
  | .binary _ l r => l.testedGroups ++ r.testedGroups
  | .not e => e.testedGroups
  | .call _ args => argumentGroups args
  | .exist g | .notExist g => [g]

def argumentGroups : List Expression → List (List Pattern)
  | [] => []
  | e :: rest => e.testedGroups ++ argumentGroups rest

end

section

variable {groups : List Token → List Pattern}

mutual

/-- Where each group is read back, so is the expression. -/
theorem Expression.regroup_eq : ∀ e : Expression,
    (∀ g ∈ e.testedGroups, groups (groupSolid g) = g) → e.regroup groups = e
  | .var _, _ | .literal _, _ | .iri _, _ => rfl
  | .binary op l r, h => by
      have hl := l.regroup_eq fun g hg => h g (List.mem_append_left _ hg)
      have hr := r.regroup_eq fun g hg => h g (List.mem_append_right _ hg)
      rw [Expression.regroup, hl, hr]
  | .not e, h => by rw [Expression.regroup, e.regroup_eq h]
  | .call f args, h => by rw [Expression.regroup, regroupArguments_eq args h]
  | .exist g, h | .notExist g, h => by
      rw [Expression.regroup, h g (List.mem_singleton_self g)]

/-- Arguments are left alone by a reading that returns their groups. -/
theorem regroupArguments_eq : ∀ args : List Expression,
    (∀ g ∈ argumentGroups args, groups (groupSolid g) = g) →
      regroupArguments groups args = args
  | [], _ => rfl
  | e :: rest, h => by
      have he := e.regroup_eq fun g hg => h g (List.mem_append_left _ hg)
      have hrest := regroupArguments_eq rest fun g hg => h g (List.mem_append_right _ hg)
      rw [regroupArguments, he, hrest]

end

/-- A phrase of a level is one of all looser levels. -/
theorem Phrase.loosen {level level' : Nat} {ts : List Token} {e : Expression}
    (h : Phrase groups level ts e) (hlevel : level' ≤ level) : Phrase groups level' ts e := by
  obtain ⟨k, rfl⟩ := Nat.exists_eq_add_of_le hlevel
  induction k with
  | zero => exact h
  | succ k ih => exact ih h.tighter (Nat.le_add_right _ _)

/-- Parentheses are left out only where the operand is tight enough without them. -/
theorem Phrase.operand {level : Nat} {e e' : Expression}
    (h : Phrase groups e.level (solid e.tokens) e') (condition : Bool) (hlevel : level ≤ tight)
    (hcondition : condition = false → level ≤ e.level) :
    Phrase groups level (solid (parenthesizedIf condition e.tokens)) e' := by
  cases condition with
  | false => exact h.loosen (hcondition rfl)
  | true =>
      rw [parenthesizedIf, if_pos rfl, solid_parenthesized]
      exact (Phrase.parenthesized (h.loosen e.loosest_le_level)).loosen hlevel

/-- An operand without parentheses is tight enough for its place. -/
theorem Expression.level_of_needsParentheses {e : Expression} (parent : BinaryOp)
    (onRight : Bool) (h : e.needsParentheses parent onRight = false) :
    (if onRight then parent.precedence + 1 else parent.precedence) ≤ e.level := by
  cases e with
  | binary op l r =>
      show _ ≤ op.precedence
      cases onRight with
      | false =>
          have hop : ¬op.precedence < parent.precedence := by simpa [needsParentheses] using h
          simpa using hop
      | true =>
          have hop : ¬op.precedence < parent.precedence ∧ op.precedence ≠ parent.precedence := by
            simpa [needsParentheses] using h
          show parent.precedence + 1 ≤ op.precedence
          omega
  | _ =>
      have hparent := BinaryOp.precedence_lt_tight parent
      show _ ≤ tight
      split <;> omega

mutual

/-- An expression is written as a phrase of its level. -/
theorem Expression.phrase_tokens : ∀ e : Expression,
    Phrase groups e.level (solid e.tokens) (e.regroup groups)
  | .var v => .var v
  | .literal l => by
      rw [Expression.tokens, Literal.solid_tokens]
      exact .literal l
  | .iri i => .iri i
  | .binary op l r => by
      -- on the left an operand of the same level needs no parentheses, on the right it does
      have hop := BinaryOp.precedence_lt_tight op
      have hl := l.phrase_tokens.operand _ (Nat.le_of_lt hop)
        (Expression.level_of_needsParentheses op false)
      have hr := r.phrase_tokens.operand _ hop (Expression.level_of_needsParentheses op true)
      simpa [Expression.tokens, Expression.level, Expression.regroup] using hl.binary hr
  | .not e => by
      have h := e.phrase_tokens.operand e.isBinary (Nat.le_refl tight) (by
        cases e <;> simp [Expression.isBinary, Expression.level])
      simpa [Expression.tokens, Expression.level, Expression.regroup] using h.not
  | .call f args => by
      have h := Phrase.call f (argumentTokens_phrases args)
      simpa [Expression.tokens, Expression.level, Expression.regroup, solid_intercalate] using h
  | .exist g => by
      have h := @Phrase.exist groups _ (balanced_groupSolid g)
      simpa [Expression.tokens, Expression.level, Expression.regroup, groupSolid] using h
  | .notExist g => by
      have h := @Phrase.notExist groups _ (balanced_groupSolid g)
      simpa [Expression.tokens, Expression.level, Expression.regroup, groupSolid] using h

/-- The tokens of arguments are phrases of these, apart by commas. -/
theorem argumentTokens_phrases : ∀ args : List Expression,
    Phrases groups (List.intercalate [.word ","] ((argumentTokens args).map solid))
      (regroupArguments groups args)
  | [] => .none
  | [e] => by
      have h := Phrases.last (e.phrase_tokens.loosen e.loosest_le_level)
      simpa [argumentTokens, regroupArguments, List.intercalate] using h
  | e :: a :: rest => by
      have h := Phrases.cons (e.phrase_tokens.loosen e.loosest_le_level)
        (argumentTokens_phrases (a :: rest))
      simpa [argumentTokens, regroupArguments, List.intercalate_cons_cons] using h

end

/-- The tokens of an expression are a phrase of that expression alone, up to the reading of
groups. -/
theorem Expression.phrase_iff {e e' : Expression} :
    Phrase groups loosest (solid e.tokens) e' ↔ e' = e.regroup groups := by
  have hphrase : Phrase groups loosest (solid e.tokens) (e.regroup groups) :=
    e.phrase_tokens.loosen e.loosest_le_level
  refine ⟨fun h => h.unique hphrase, ?_⟩
  rintro rfl
  exact hphrase

/-- The reader finds it. -/
theorem Expression.readAt_tokens (e : Expression) :
    readAt groups loosest (solid e.tokens) = some (e.regroup groups, []) :=
  (Expression.phrase_iff.mpr rfl).readAt_eq

end

/-- **What is written determines its tree.**  The tokens of an expression are a phrase of the
loosest level, and of one expression only: the one that was written, with what the tokens
between the braces of a test for existence are read as in place of its group.  Where they
are read as that group, this is the expression itself.  The tokens of a path are a phrase of
that path only, and so is its text, unless a prefix starts with a sign of paths. -/
theorem rendering_determines_tree :
    (∀ (groups : List Token → List Pattern) (e : Expression),
      (∀ e', Phrase groups loosest (solid e.tokens) e' ↔ e' = e.regroup groups) ∧
        ((∀ g ∈ e.testedGroups, groups (groupSolid g) = g) → e.regroup groups = e)) ∧
    (∀ p q : Path, PathPhrase .tokens false p.tokens q ↔ q = p) ∧
    ∀ style : IriStyle, style.Legible → ∀ p q : Path,
      PathPhrase (.text style) false (textOf style p.tokens).toList q ↔ q = p :=
  ⟨fun _ e => ⟨fun _ => Expression.phrase_iff, e.regroup_eq⟩,
    fun _ _ => Path.phrase_tokens_iff,
    fun _ hstyle _ _ => Path.phrase_text_iff hstyle⟩

/-- An operator between parentheses beside a test under `!`, and a path with two operators. -/
theorem rendering_determines_tree_nested :
    (∀ e', Phrase (fun _ => []) loosest
        (solid (Expression.binary .and (.binary .or (.var ⟨"a"⟩) (.var ⟨"b"⟩))
          (.not (.exist []))).tokens) e' ↔
      e' = .binary .and (.binary .or (.var ⟨"a"⟩) (.var ⟨"b"⟩)) (.not (.exist []))) ∧
    ∀ q, PathPhrase (.text (.compact .exampleOrg)) false
        (textOf (.compact .exampleOrg)
          (Path.inverse (.zeroOrMore (.iri "http://example.org/p"))).tokens).toList q ↔
      q = .inverse (.zeroOrMore (.iri "http://example.org/p")) := by
  obtain ⟨hexpression, -, htext⟩ := rendering_determines_tree
  refine ⟨fun e' => ?_, fun q => htext _ ?_ _ q⟩
  · obtain ⟨hread, hsame⟩ := hexpression (fun _ => [])
      (.binary .and (.binary .or (.var ⟨"a"⟩) (.var ⟨"b"⟩)) (.not (.exist [])))
    have hgroups := hsame (by simp [Expression.testedGroups])
    rw [hread, hgroups]
  · simp [IriStyle.Legible, Namespaces.exampleOrg, Namespaces.insert, Namespaces.insertEntry,
      Namespaces.empty]

end ObjectGraph.Sparql
