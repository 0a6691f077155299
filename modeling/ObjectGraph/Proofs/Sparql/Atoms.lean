import ObjectGraph.Proofs.Sparql.Styles

/-!
# What a query is made of

Apart from the texts of its literals, a query takes four kinds of names from outside:
variables, IRIs, language tags and the labels of blank nodes.  `All` says that a property
holds of every such atom of a tree, through every nested group, sub-select, path and
expression.

Printing adds nothing to them.  Each token of a query is an atom of its tree, the text of a
literal, or a word or gap of the printer's own, and in none of the latter is a quotation mark
(`Document.fit_tokens`).
-/

namespace ObjectGraph.Sparql

/-- A name that a query takes from outside. -/
inductive Atom where
  | var (v : Var)
  | iri (iri : String)
  | tag (tag : String)
  | label (label : String)

/-! ## The atoms of a tree -/

section

variable (P : Atom → Prop)

def Literal.All : Literal → Prop
  | .typed _ datatype => P (.iri datatype)
  | .tagged _ language => P (.tag language)
  | .plain _ | .boolean _ => True

def Term.All : Term → Prop
  | .var v => P (.var v)
  | .iri i => P (.iri i)
  | .literal l => l.All P
  | .blank label => P (.label label)

def Path.All : Path → Prop
  | .iri i => P (.iri i)
  | .inverse p | .zeroOrMore p => p.All

def Predicate.All : Predicate → Prop
  | .var v => P (.var v)
  | .iri i => P (.iri i)
  | .path p => p.All P

structure Triple.All (t : Triple) : Prop where
  subject : t.subject.All P
  predicate : t.predicate.All P
  object : t.object.All P

mutual

def Expression.All : Expression → Prop
  | .var v => P (.var v)
  | .literal l => l.All P
  | .iri i => P (.iri i)
  | .binary _ l r => l.All ∧ r.All
  | .not e => e.All
  | .call _ args => argumentsAll args
  | .exist g | .notExist g => groupAll g

def argumentsAll : List Expression → Prop
  | [] => True
  | e :: rest => e.All ∧ argumentsAll rest

def Pattern.All : Pattern → Prop
  | .triples ts => ∀ t ∈ ts, t.All P
  | .optional g | .group g => groupAll g
  | .filter e => e.All
  | .bind e v => e.All ∧ P (.var v)
  | .service endpoint _ g => P (.iri endpoint) ∧ groupAll g
  | .subselect q => q.All

def groupAll : List Pattern → Prop
  | [] => True
  | p :: rest => p.All ∧ groupAll rest

def Select.All : Select → Prop
  | ⟨_, projection, body, ⟨orderBy, _, _⟩⟩ =>
    (∀ vs ∈ projection, ∀ v ∈ vs, P (.var v)) ∧ groupAll body ∧ orderAll orderBy

def orderAll : List OrderCondition → Prop
  | [] => True
  | ⟨e, _⟩ :: rest => e.All ∧ orderAll rest

end

def Operation.All : Operation → Prop
  | .insertData ts => ∀ t ∈ ts, t.All P
  | .modify delete insert body =>
    (∀ t ∈ delete, t.All P) ∧ (∀ t ∈ insert, t.All P) ∧ groupAll P body

/-- A property holds of every atom of a query or an update. -/
def Document.All : Document → Prop
  | .select q => q.All P
  | .construct q =>
    (∀ t ∈ q.template, t.All P) ∧ groupAll P q.body ∧ orderAll P q.modifiers.orderBy
  | .update u => ∀ op ∈ u, op.All P

end

variable {P : Atom → Prop}

/-- A property holds of all atoms of arguments if it does of each argument's. -/
theorem argumentsAll_iff {args : List Expression} : argumentsAll P args ↔ ∀ e ∈ args, e.All P := by
  induction args with
  | nil => simp [argumentsAll]
  | cons e rest ih => simp [argumentsAll, ih]

theorem groupAll_iff {g : List Pattern} : groupAll P g ↔ ∀ p ∈ g, p.All P := by
  induction g with
  | nil => simp [groupAll]
  | cons p rest ih => simp [groupAll, ih]

theorem orderAll_iff {keys : List OrderCondition} :
    orderAll P keys ↔ ∀ k ∈ keys, k.expression.All P := by
  induction keys with
  | nil => simp [orderAll]
  | cons k rest ih =>
      obtain ⟨e, descending⟩ := k
      simp [orderAll, ih]

/-- The variables of a triple are among its atoms. -/
theorem Triple.All.vars {t : Triple} (h : t.All P) : ∀ x ∈ t.vars, P (.var x) := by
  have hterm : ∀ {t : Term}, t.All P → ∀ x ∈ t.asVar?.toList, P (.var x) := by
    intro t ht x hx
    cases t with
    | var v =>
        obtain rfl := List.mem_singleton.mp hx
        exact ht
    | iri | literal | blank => cases hx
  obtain ⟨subject, predicate, object⟩ := t
  refine List.forall_mem_append.mpr
    ⟨List.forall_mem_append.mpr ⟨hterm h.subject, ?_⟩, hterm h.object⟩
  cases predicate with
  | var v => exact List.forall_mem_singleton.mpr h.predicate
  | iri | path => exact List.forall_mem_nil _

section

variable {Q : Atom → Prop}

theorem Literal.All.mono (hPQ : ∀ a, P a → Q a) {l : Literal} (h : l.All P) : l.All Q := by
  cases l with
  | plain | boolean => trivial
  | tagged | typed => exact hPQ _ h

theorem Term.All.mono (hPQ : ∀ a, P a → Q a) {t : Term} (h : t.All P) : t.All Q := by
  cases t with
  | literal => exact Literal.All.mono hPQ h
  | var | iri | blank => exact hPQ _ h

theorem Path.All.mono (hPQ : ∀ a, P a → Q a) {p : Path} (h : p.All P) : p.All Q := by
  induction p with
  | iri => exact hPQ _ h
  | inverse p ih | zeroOrMore p ih => exact ih h

theorem Predicate.All.mono (hPQ : ∀ a, P a → Q a) {p : Predicate} (h : p.All P) : p.All Q := by
  cases p with
  | path => exact Path.All.mono hPQ h
  | var | iri => exact hPQ _ h

theorem Triple.All.mono (hPQ : ∀ a, P a → Q a) {t : Triple} (h : t.All P) : t.All Q where
  subject := h.subject.mono hPQ
  predicate := h.predicate.mono hPQ
  object := h.object.mono hPQ

mutual

/-- The property of an expression's atoms can be widened, through all groups that it tests. -/
theorem Expression.All.mono (hPQ : ∀ a, P a → Q a) : ∀ {e : Expression}, e.All P → e.All Q
  | .var _, h => hPQ _ h
  | .literal _, h => Literal.All.mono hPQ h
  | .iri _, h => hPQ _ h
  | .binary _ _ _, h => ⟨Expression.All.mono hPQ h.1, Expression.All.mono hPQ h.2⟩
  | .not e, h => Expression.All.mono hPQ (e := e) h
  | .call _ args, h => (argumentsAll_mono hPQ h : argumentsAll Q args)
  | .exist g, h => groupAll_mono hPQ (g := g) h
  | .notExist g, h => groupAll_mono hPQ (g := g) h

theorem argumentsAll_mono (hPQ : ∀ a, P a → Q a) :
    ∀ {args : List Expression}, argumentsAll P args → argumentsAll Q args
  | [], _ => trivial
  | _ :: _, h => ⟨Expression.All.mono hPQ h.1, argumentsAll_mono hPQ h.2⟩

theorem Pattern.All.mono (hPQ : ∀ a, P a → Q a) : ∀ {p : Pattern}, p.All P → p.All Q
  | .triples _, h => fun t ht => (h t ht).mono hPQ
  | .optional g, h => groupAll_mono hPQ (g := g) h
  | .filter e, h => Expression.All.mono hPQ (e := e) h
  | .bind _ _, h => ⟨Expression.All.mono hPQ h.1, hPQ _ h.2⟩
  | .group g, h => groupAll_mono hPQ (g := g) h
  | .service _ _ _, h => ⟨hPQ _ h.1, groupAll_mono hPQ h.2⟩
  | .subselect q, h => Select.All.mono hPQ (q := q) h

theorem groupAll_mono (hPQ : ∀ a, P a → Q a) :
    ∀ {g : List Pattern}, groupAll P g → groupAll Q g
  | [], _ => trivial
  | _ :: _, h => ⟨Pattern.All.mono hPQ h.1, groupAll_mono hPQ h.2⟩

theorem Select.All.mono (hPQ : ∀ a, P a → Q a) : ∀ {q : Select}, q.All P → q.All Q
  | ⟨_, _, _, ⟨_, _, _⟩⟩, h =>
    ⟨fun vs hvs v hv => hPQ _ (h.1 vs hvs v hv), groupAll_mono hPQ h.2.1, orderAll_mono hPQ h.2.2⟩

theorem orderAll_mono (hPQ : ∀ a, P a → Q a) :
    ∀ {keys : List OrderCondition}, orderAll P keys → orderAll Q keys
  | [], _ => trivial
  | ⟨_, _⟩ :: _, h => ⟨Expression.All.mono hPQ h.1, orderAll_mono hPQ h.2⟩

end

/-- The property of the atoms of an operation can be widened. -/
theorem Operation.All.mono (hPQ : ∀ a, P a → Q a) {op : Operation} (h : op.All P) : op.All Q := by
  cases op with
  | insertData ts => exact fun t ht => (h t ht).mono hPQ
  | modify delete insert body =>
      exact ⟨fun t ht => (h.1 t ht).mono hPQ, fun t ht => (h.2.1 t ht).mono hPQ,
        groupAll_mono hPQ h.2.2⟩

end

/-! ## The atoms of tokens -/

/-- No quotation mark stands in a text. -/
def Unquoted (s : String) : Prop :=
  '"' ∉ s.toList

/-- A property holds of the atom that a token is, and what the printer writes of its own has
no quotation mark. -/
def Token.Fits (P : Atom → Prop) : Token → Prop
  | .word s | .gap s => Unquoted s
  | .variable v => P (.var v)
  | .iri i => P (.iri i)
  | .quoted _ => True
  | .language tag => P (.tag tag)
  | .blank label => P (.label label)

/-- All of some tokens fit. -/
def Fit (P : Atom → Prop) (ts : List Token) : Prop :=
  ∀ t ∈ ts, t.Fits P

@[simp] theorem fit_nil : Fit P [] :=
  List.forall_mem_nil _

@[simp] theorem fit_cons {t : Token} {ts : List Token} :
    Fit P (t :: ts) ↔ t.Fits P ∧ Fit P ts :=
  List.forall_mem_cons

@[simp] theorem fit_append {ts us : List Token} : Fit P (ts ++ us) ↔ Fit P ts ∧ Fit P us :=
  List.forall_mem_append

theorem Token.fits_word {s : String} (h : Unquoted s) : (Token.word s).Fits P := h

theorem Token.fits_gap {s : String} (h : Unquoted s) : (Token.gap s).Fits P := h

instance : DecidablePred Unquoted := fun s => inferInstanceAs (Decidable ('"' ∉ s.toList))

/-- A number is written without quotation marks. -/
theorem unquoted_toString (n : Nat) : Unquoted (toString n) := by
  intro h
  rw [Nat.toString_eq_repr, Nat.toList_repr] at h
  exact absurd (Nat.isDigit_of_mem_toDigits (by decide) (by decide) h) (by decide)

/-- Parts with fitting tokens between them fit. -/
theorem fit_intercalate {separator : List Token} (h : Fit P separator) {parts : List (List Token)}
    (hparts : ∀ part ∈ parts, Fit P part) : Fit P (List.intercalate separator parts) := by
  induction parts with
  | nil => exact fit_nil
  | cons part rest ih =>
      obtain ⟨hpart, hrest⟩ := List.forall_mem_cons.mp hparts
      cases rest with
      | nil => simpa [List.intercalate] using hpart
      | cons next rest =>
          rw [List.intercalate_cons_cons, fit_append, fit_append]
          exact ⟨⟨hpart, h⟩, ih hrest⟩

/-- Gaps of one space. -/
theorem fit_spaced {parts : List (List Token)} (h : ∀ part ∈ parts, Fit P part) :
    Fit P (spaced parts) :=
  fit_intercalate (fit_cons.mpr ⟨Token.fits_gap (by decide), fit_nil⟩) h

/-- Parts between braces fit. -/
theorem fit_braced {parts : List (List Token)} (h : ∀ part ∈ parts, Fit P part) :
    Fit P (braced parts) := by
  have hopen : Fit P [.word "\x7b", .gap " "] := by
    simp only [fit_cons, Token.Fits, fit_nil, and_true]
    decide
  have hclose : Fit P [.gap " ", .word "\x7d"] := by
    simp only [fit_cons, Token.Fits, fit_nil, and_true]
    decide
  unfold braced
  split
  · exact fit_append.mpr ⟨hopen, (fit_cons.mp hclose).2⟩
  · exact fit_append.mpr ⟨fit_append.mpr ⟨hopen, fit_spaced h⟩, hclose⟩

/-- Tokens between parentheses fit. -/
theorem fit_parenthesized {ts : List Token} (h : Fit P ts) : Fit P (parenthesized ts) := by
  simp only [parenthesized, List.cons_append, fit_cons, fit_append, Token.Fits, fit_nil, and_true]
  exact ⟨by decide, h, by decide⟩

theorem fit_parenthesizedIf (condition : Bool) {ts : List Token} (h : Fit P ts) :
    Fit P (parenthesizedIf condition ts) := by
  cases condition with
  | false => exact h
  | true => exact fit_parenthesized h

theorem fit_line {ts : List Token} (h : Fit P ts) : Fit P (line ts) := by
  simp only [line, List.cons_append, fit_cons, fit_append, Token.Fits, fit_nil, and_true]
  exact ⟨by decide, h, by decide⟩

/-- The head of a query fits if its variables do. -/
theorem fit_headTokens {distinct : Bool} {projection : Option (List Var)}
    (h : ∀ vs ∈ projection, ∀ v ∈ vs, P (.var v)) : Fit P (headTokens distinct projection) := by
  have hword : ∀ {s : String}, Unquoted s → Fit P [.word s] := fun hs => fit_cons.mpr ⟨hs, fit_nil⟩
  refine fit_spaced (List.forall_mem_append.mpr ⟨List.forall_mem_cons.mpr
    ⟨hword (by decide), ?_⟩, ?_⟩)
  · cases distinct with
    | false => exact List.forall_mem_nil _
    | true => exact List.forall_mem_singleton.mpr (hword (by decide))
  · cases projection with
    | none => exact List.forall_mem_singleton.mpr (hword (by decide))
    | some vs =>
        intro part hpart
        obtain ⟨v, hv, rfl⟩ := List.mem_map.mp hpart
        exact fit_cons.mpr ⟨h vs rfl v hv, fit_nil⟩

/-- The modifiers of a query fit if the keys of the order do. -/
theorem fit_modifierTokens {gap : String} (hgap : Unquoted gap) {keys : List (List Token)}
    (hkeys : ∀ key ∈ keys, Fit P key) (limit offset : Option Nat) :
    Fit P (modifierTokens gap keys limit offset) := by
  have hcut : ∀ (word : String) (n : Nat), Unquoted word →
      Fit P [.gap gap, .word word, .gap " ", .word (toString n)] := by
    intro word n hword
    simp only [fit_cons, Token.Fits, fit_nil, and_true]
    exact ⟨hgap, hword, by decide, unquoted_toString n⟩
  unfold modifierTokens
  refine fit_append.mpr ⟨fit_append.mpr ⟨?_, ?_⟩, ?_⟩
  · split
    · exact fit_nil
    · simp only [List.cons_append, List.nil_append, fit_cons, Token.Fits]
      exact ⟨hgap, by decide, by decide, by decide, by decide, fit_spaced hkeys⟩
  · cases limit with
    | none => exact fit_nil
    | some n => exact hcut _ n (by decide)
  · cases offset with
    | none => exact fit_nil
    | some n => exact hcut _ n (by decide)

theorem Literal.fit_tokens {l : Literal} (h : l.All P) : Fit P l.tokens := by
  cases l with
  | plain s => exact fit_cons.mpr ⟨trivial, fit_nil⟩
  | tagged s language => exact fit_cons.mpr ⟨trivial, fit_cons.mpr ⟨h, fit_nil⟩⟩
  | typed s datatype =>
      exact fit_cons.mpr ⟨trivial, fit_cons.mpr ⟨Token.fits_word (by decide),
        fit_cons.mpr ⟨h, fit_nil⟩⟩⟩
  | boolean b => cases b <;> exact fit_cons.mpr ⟨Token.fits_word (by decide), fit_nil⟩

theorem Term.fit_tokens {t : Term} (h : t.All P) : Fit P t.tokens := by
  cases t with
  | literal l => exact l.fit_tokens h
  | var | iri | blank => exact fit_cons.mpr ⟨h, fit_nil⟩

theorem Path.fit_tokens {p : Path} (h : p.All P) : Fit P p.tokens := by
  induction p with
  | iri => exact fit_cons.mpr ⟨h, fit_nil⟩
  | inverse p ih => exact fit_cons.mpr ⟨Token.fits_word (by decide), fit_parenthesizedIf _ (ih h)⟩
  | zeroOrMore p ih =>
      refine fit_append.mpr ⟨fit_parenthesizedIf _ (ih h), ?_⟩
      exact fit_cons.mpr ⟨Token.fits_word (by decide), fit_nil⟩

theorem Predicate.fit_tokens {p : Predicate} (h : p.All P) : Fit P p.tokens := by
  cases p with
  | path p => exact p.fit_tokens h
  | var | iri => exact fit_cons.mpr ⟨h, fit_nil⟩

theorem Triple.fit_tokens {t : Triple} (h : t.All P) : Fit P t.tokens := by
  have hdot : Fit P [.word "."] := fit_cons.mpr ⟨Token.fits_word (by decide), fit_nil⟩
  refine fit_spaced ?_
  simp only [List.forall_mem_cons]
  exact ⟨t.subject.fit_tokens h.subject, t.predicate.fit_tokens h.predicate,
    t.object.fit_tokens h.object, hdot, List.forall_mem_nil _⟩

/-- A filter stands between parentheses unless it is a test for existence. -/
theorem Pattern.fit_filter {e : Expression} (h : Fit P e.tokens) :
    Fit P (Pattern.filter e).tokens := by
  cases e with
  | exist g | notExist g =>
      -- the printer writes these without parentheses, in branches of their own
      simp only [Pattern.tokens, Expression.tokens, List.cons_append, List.nil_append,
        fit_cons] at h ⊢
      exact ⟨Token.fits_word (by decide), Token.fits_gap (by decide), h⟩
  | var | literal | iri | binary | not | call =>
      simp only [Pattern.tokens]
      exact fit_cons.mpr ⟨Token.fits_word (by decide), fit_parenthesized h⟩

mutual

/-- The tokens of an expression fit if its atoms have the property. -/
theorem Expression.fit_tokens : ∀ {e : Expression}, e.All P → Fit P e.tokens
  | .var _, h => fit_cons.mpr ⟨h, fit_nil⟩
  | .literal l, h => l.fit_tokens h
  | .iri _, h => fit_cons.mpr ⟨h, fit_nil⟩
  | .binary op l r, h => by
      have hsign : Fit P [.gap " ", .word op.sign, .gap " "] := by
        simp only [fit_cons, Token.Fits, fit_nil, and_true]
        exact ⟨by decide, by cases op <;> decide, by decide⟩
      exact fit_append.mpr ⟨fit_append.mpr
        ⟨fit_parenthesizedIf _ (Expression.fit_tokens h.1), hsign⟩,
        fit_parenthesizedIf _ (Expression.fit_tokens h.2)⟩
  | .not e, h =>
      fit_cons.mpr ⟨Token.fits_word (by decide),
        fit_parenthesizedIf _ (Expression.fit_tokens h)⟩
  | .call f args, h => by
      have hcomma : Fit P [.word ",", .gap " "] :=
        fit_cons.mpr
          ⟨Token.fits_word (by decide), fit_cons.mpr ⟨Token.fits_gap (by decide), fit_nil⟩⟩
      refine fit_cons.mpr ⟨Token.fits_word (by cases f <;> decide), ?_⟩
      exact fit_parenthesized (fit_intercalate hcomma (fit_argumentTokens h))
  | .exist g, h => by
      refine fit_cons.mpr ⟨Token.fits_word (by decide), ?_⟩
      exact fit_cons.mpr ⟨Token.fits_gap (by decide), fit_braced (fit_groupTokens h)⟩
  | .notExist g, h => by
      simp only [Expression.tokens, List.cons_append, List.nil_append, fit_cons]
      exact ⟨Token.fits_word (by decide), Token.fits_gap (by decide), Token.fits_word (by decide),
        Token.fits_gap (by decide), fit_braced (fit_groupTokens h)⟩

theorem fit_argumentTokens : ∀ {args : List Expression}, argumentsAll P args →
    ∀ part ∈ argumentTokens args, Fit P part
  | [], _ => List.forall_mem_nil _
  | _ :: _, h => List.forall_mem_cons.mpr ⟨Expression.fit_tokens h.1, fit_argumentTokens h.2⟩

theorem Pattern.fit_tokens : ∀ {p : Pattern}, p.All P → Fit P p.tokens
  | .triples ts, h => by
      refine fit_spaced fun part hpart => ?_
      obtain ⟨t, ht, rfl⟩ := List.mem_map.mp hpart
      exact t.fit_tokens (h t ht)
  | .optional g, h => by
      refine fit_cons.mpr ⟨Token.fits_word (by decide), ?_⟩
      exact fit_cons.mpr ⟨Token.fits_gap (by decide), fit_braced (fit_groupTokens h)⟩
  | .filter e, h => Pattern.fit_filter (Expression.fit_tokens h)
  | .bind e v, h => by
      refine fit_cons.mpr ⟨Token.fits_word (by decide), fit_parenthesized ?_⟩
      simp only [fit_append, fit_cons, fit_nil, and_true]
      exact ⟨Expression.fit_tokens h.1, Token.fits_gap (by decide), Token.fits_word (by decide),
        Token.fits_gap (by decide), h.2⟩
  | .group g, h => fit_braced (fit_groupTokens h)
  | .service endpoint silent g, h => by
      have hsilent : Fit P (if silent then [.word "SILENT", .gap " "] else []) := by
        cases silent with
        | false => exact fit_nil
        | true =>
            exact fit_cons.mpr ⟨Token.fits_word (by decide),
              fit_cons.mpr ⟨Token.fits_gap (by decide), fit_nil⟩⟩
      simp only [Pattern.tokens, List.cons_append, List.nil_append, fit_cons, fit_append,
        fit_nil, and_true]
      exact ⟨Token.fits_word (by decide), Token.fits_gap (by decide),
        ⟨hsilent, h.1, Token.fits_gap (by decide)⟩, fit_braced (fit_groupTokens h.2)⟩
  | .subselect q, h => fit_braced (List.forall_mem_singleton.mpr (Select.fit_tokens h))

theorem fit_groupTokens : ∀ {g : List Pattern}, groupAll P g → ∀ part ∈ groupTokens g, Fit P part
  | [], _ => List.forall_mem_nil _
  | p :: rest, h => by
      rw [groupTokens]
      split
      · exact fit_groupTokens h.2
      · exact List.forall_mem_cons.mpr ⟨Pattern.fit_tokens h.1, fit_groupTokens h.2⟩

theorem Select.fit_tokens : ∀ {q : Select}, q.All P → Fit P q.tokens
  | ⟨distinct, projection, body, ⟨orderBy, limit, offset⟩⟩, h => by
      have hwhere : Fit P [.gap " ", .word "WHERE", .gap " "] := by
        simp only [fit_cons, Token.Fits, fit_nil, and_true]
        decide
      simp only [Select.tokens, fit_append]
      exact ⟨⟨⟨fit_headTokens h.1, hwhere⟩, fit_braced (fit_groupTokens h.2.1)⟩,
        fit_modifierTokens (by decide) (fit_orderTokens h.2.2) limit offset⟩

theorem fit_orderTokens : ∀ {keys : List OrderCondition}, orderAll P keys →
    ∀ part ∈ orderTokens keys, Fit P part
  | [], _ => List.forall_mem_nil _
  | ⟨e, descending⟩ :: rest, h => by
      refine List.forall_mem_cons.mpr ⟨fit_cons.mpr ⟨?_, ?_⟩, fit_orderTokens h.2⟩
      · exact Token.fits_word (by cases descending <;> decide)
      · exact fit_parenthesized (Expression.fit_tokens h.1)

end

/-! ## Documents -/

/-- The tokens of a template fit if the atoms of its triples have the property. -/
theorem fit_templateTokens {ts : List Triple} (h : ∀ t ∈ ts, t.All P) :
    Fit P (templateTokens ts) := by
  intro token htoken
  obtain ⟨t, ht, htoken⟩ := List.mem_flatMap.mp htoken
  exact fit_line (t.fit_tokens (h t ht)) token htoken

theorem fit_blockTokens {body : List Pattern} (h : groupAll P body) :
    Fit P (blockTokens body) := by
  intro token htoken
  obtain ⟨p, hp, htoken⟩ := List.mem_flatMap.mp htoken
  have hall := groupAll_iff.mp h p hp
  cases p with
  | triples ts => exact fit_templateTokens hall token htoken
  | optional | filter | bind | group | service | subselect =>
      exact fit_line (Pattern.fit_tokens hall) token htoken

/-- A keyword and the block of lines behind it fit. -/
theorem fit_blockOf {keyword lines : List Token} (hkeyword : Fit P keyword)
    (hlines : Fit P lines) : Fit P (blockOf keyword lines) := by
  have hopen : Fit P [.gap " ", .word "\x7b", .gap "\n"] := by
    simp only [fit_cons, Token.Fits, fit_nil, and_true]
    decide
  simp only [blockOf, fit_append]
  exact ⟨⟨⟨hkeyword, hopen⟩, hlines⟩, fit_cons.mpr ⟨Token.fits_word (by decide), fit_nil⟩⟩

theorem Modifiers.fit_tokens {m : Modifiers} (h : orderAll P m.orderBy) : Fit P m.tokens :=
  fit_modifierTokens (by decide) (fit_orderTokens h) m.limit m.offset

theorem fit_clauseTokens {keyword : String} (hkeyword : Unquoted keyword) {ts : List Triple}
    (h : ∀ t ∈ ts, t.All P) : Fit P (clauseTokens keyword ts) := by
  unfold clauseTokens
  split
  · exact fit_nil
  · refine fit_append.mpr ⟨fit_blockOf ?_ (fit_templateTokens h), ?_⟩
    · exact fit_cons.mpr ⟨Token.fits_word hkeyword, fit_nil⟩
    · exact fit_cons.mpr ⟨Token.fits_gap (by decide), fit_nil⟩

/-- The tokens of an operation fit if its atoms have the property. -/
theorem Operation.fit_document {op : Operation} (h : op.All P) : Fit P op.document := by
  cases op with
  | insertData ts =>
      refine fit_blockOf ?_ (fit_templateTokens h)
      simp only [fit_cons, Token.Fits, fit_nil, and_true]
      decide
  | modify delete insert body =>
      have hwhere : Fit P [.word "WHERE"] := fit_cons.mpr ⟨Token.fits_word (by decide), fit_nil⟩
      simp only [document, fit_append]
      exact ⟨⟨fit_clauseTokens (by decide) h.1, fit_clauseTokens (by decide) h.2.1⟩,
        fit_blockOf hwhere (fit_blockTokens h.2.2)⟩

/-- **The tokens of a document are its atoms**, the texts of its literals, and words and gaps
of the printer's own, in which no quotation mark stands. -/
theorem Document.fit_tokens {d : Document} (h : d.All P) : Fit P d.tokens := by
  have hwhere : Fit P [.word "WHERE"] := fit_cons.mpr ⟨Token.fits_word (by decide), fit_nil⟩
  cases d with
  | select q =>
      obtain ⟨distinct, projection, body, ⟨orderBy, limit, offset⟩⟩ := q
      have hend : Fit P [.gap " ", .word "WHERE"] :=
        fit_cons.mpr ⟨Token.fits_gap (by decide), hwhere⟩
      exact fit_append.mpr ⟨fit_blockOf (fit_append.mpr ⟨fit_headTokens h.1, hend⟩)
        (fit_blockTokens h.2.1), Modifiers.fit_tokens h.2.2⟩
  | construct q =>
      have hconstruct : Fit P [.word "CONSTRUCT"] :=
        fit_cons.mpr ⟨Token.fits_word (by decide), fit_nil⟩
      have hgap : Fit P [.gap "\n"] := fit_cons.mpr ⟨Token.fits_gap (by decide), fit_nil⟩
      simp only [tokens, Construct.document, fit_append]
      exact ⟨⟨⟨fit_blockOf hconstruct (fit_templateTokens h.1), hgap⟩,
        fit_blockOf hwhere (fit_blockTokens h.2.1)⟩, Modifiers.fit_tokens h.2.2⟩
  | update u =>
      have hnext : Fit P [.gap " ", .word ";", .gap "\n"] := by
        simp only [fit_cons, Token.Fits, fit_nil, and_true]
        decide
      refine fit_intercalate hnext fun part hpart => ?_
      obtain ⟨op, hop, rfl⟩ := List.mem_map.mp hpart
      exact op.fit_document (h op hop)

end ObjectGraph.Sparql
