import ObjectGraph.Proofs.Namespaces
import ObjectGraph.Sparql.Printer

/-!
# Two styles, one query

The IRIs of a query, in the order in which they stand in it, are read off its tree,
through every nested group, sub-select, path, expression and datatype.  The tokens of
the query have the same IRIs in the same order (`Expression.iris_tokens` and its
companions): what the printer leaves out, an empty block or an empty template, has
none.

So the text of a query is a sequence of stretches, some of which are its IRIs.  The
full style writes every IRI between angle brackets; the compact style writes some with
a prefix and a local name, declares the prefixes of those and no others, and changes
nothing else (`Document.styles_agree`).
-/

namespace ObjectGraph

namespace Sparql

/-- An IRI between angle brackets. -/
def inFull (iri : String) : String :=
  "<" ++ iri ++ ">"

end Sparql

/-- The map has a prefix and a local name for an IRI that may stand in a query. -/
def Namespaces.Shortens (ns : Namespaces) (iri name rest : String) : Prop :=
  ns.split? iri = some (name, rest) ∧ Sparql.isLocalName rest = true

/-- An IRI as the compact style writes it: with prefix and local name where the map has
them, and in full otherwise. -/
def Namespaces.shorten (ns : Namespaces) (iri : String) : String :=
  match ns.split? iri with
  | some (name, rest) =>
    if Sparql.isLocalName rest then name ++ ":" ++ rest else Sparql.inFull iri
  | none => Sparql.inFull iri

namespace Sparql

/-- A stretch of a text: an IRI, or characters that every style writes alike. -/
inductive Stretch where
  | iri (iri : String)
  | verbatim (text : String)

/-- The IRI that a stretch is. -/
def Stretch.iri? : Stretch → Option String
  | .iri i => some i
  | .verbatim _ => none

/-- The characters of a stretch, given how IRIs are written. -/
def Stretch.text (write : String → String) : Stretch → String
  | .iri i => write i
  | .verbatim s => s

/-- The text that stretches make. -/
def textWith (write : String → String) (stretches : List Stretch) : String :=
  String.join (stretches.map (Stretch.text write))

/-- A query or an update. -/
inductive Document where
  | select (q : Select)
  | construct (q : Construct)
  | update (u : Update)

/-- The tokens of a query or an update. -/
def Document.tokens : Document → List Token
  | .select q => q.document
  | .construct q => q.document
  | .update u => updateDocument u

/-! ## The IRIs of a tree -/

def Literal.iris : Literal → List String
  | .typed _ datatype => [datatype]
  | .plain _ | .tagged _ _ | .boolean _ => []

def Term.iris : Term → List String
  | .iri i => [i]
  | .literal l => l.iris
  | .var _ | .blank _ => []

def Path.iris : Path → List String
  | .iri i => [i]
  | .inverse p | .zeroOrMore p => p.iris

def Predicate.iris : Predicate → List String
  | .var _ => []
  | .iri i => [i]
  | .path p => p.iris

def Triple.iris (t : Triple) : List String :=
  t.subject.iris ++ t.predicate.iris ++ t.object.iris

mutual

def Expression.iris : Expression → List String
  | .var _ => []
  | .literal l => l.iris
  | .iri i => [i]
  | .binary _ l r => l.iris ++ r.iris
  | .not e => e.iris
  | .call _ args => argumentIris args
  | .exist g | .notExist g => groupIris g

def argumentIris : List Expression → List String
  | [] => []
  | e :: rest => e.iris ++ argumentIris rest

def Pattern.iris : Pattern → List String
  | .triples ts => ts.flatMap Triple.iris
  | .optional g | .group g => groupIris g
  | .filter e => e.iris
  | .bind e _ => e.iris
  | .service endpoint _ g => endpoint :: groupIris g
  | .subselect q => q.iris

def groupIris : List Pattern → List String
  | [] => []
  | p :: rest => p.iris ++ groupIris rest

def Select.iris : Select → List String
  | ⟨_, _, body, ⟨orderBy, _, _⟩⟩ => groupIris body ++ orderIris orderBy

def orderIris : List OrderCondition → List String
  | [] => []
  | ⟨e, _⟩ :: rest => e.iris ++ orderIris rest

end

def Operation.iris : Operation → List String
  | .insertData ts => ts.flatMap Triple.iris
  | .modify delete insert body =>
    delete.flatMap Triple.iris ++ insert.flatMap Triple.iris ++ groupIris body

/-- The IRIs of a query or an update, in the order in which they stand in it. -/
def Document.iris : Document → List String
  | .select q => q.iris
  | .construct q =>
    q.template.flatMap Triple.iris ++ groupIris q.body ++ orderIris q.modifiers.orderBy
  | .update u => u.flatMap Operation.iris

/-! ## The IRIs of tokens -/

/-- The IRI that a token is. -/
def Token.iri? : Token → Option String
  | .iri i => some i
  | _ => none

/-- The IRIs among tokens. -/
def irisOf (ts : List Token) : List String :=
  ts.filterMap Token.iri?

@[simp] theorem irisOf_nil : irisOf [] = [] := rfl

@[simp] theorem irisOf_append (ts us : List Token) : irisOf (ts ++ us) = irisOf ts ++ irisOf us :=
  List.filterMap_append

@[simp] theorem irisOf_iri (i : String) (ts : List Token) :
    irisOf (.iri i :: ts) = i :: irisOf ts :=
  rfl

/-- The IRIs among tokens are those that a token is. -/
theorem mem_irisOf {ts : List Token} {i : String} : i ∈ irisOf ts ↔ Token.iri i ∈ ts := by
  rw [irisOf, List.mem_filterMap]
  constructor
  · rintro ⟨t, ht, hi⟩
    cases t with
    | iri j => exact Option.some.inj hi ▸ ht
    | _ => cases hi
  · exact fun h => ⟨_, h, rfl⟩

/-- Only a token that is an IRI counts. -/
theorem irisOf_cons_of_none {t : Token} (h : t.iri? = none) (ts : List Token) :
    irisOf (t :: ts) = irisOf ts :=
  List.filterMap_cons_none h

@[simp] theorem irisOf_word (s : String) (ts : List Token) : irisOf (.word s :: ts) = irisOf ts :=
  irisOf_cons_of_none rfl ts

@[simp] theorem irisOf_gap (s : String) (ts : List Token) : irisOf (.gap s :: ts) = irisOf ts :=
  irisOf_cons_of_none rfl ts

@[simp] theorem irisOf_variable (v : Var) (ts : List Token) :
    irisOf (.variable v :: ts) = irisOf ts :=
  irisOf_cons_of_none rfl ts

/-- A separator without IRIs adds none. -/
theorem irisOf_intercalate {separator : List Token} (h : irisOf separator = [])
    (parts : List (List Token)) :
    irisOf (List.intercalate separator parts) = parts.flatMap irisOf := by
  induction parts with
  | nil => rfl
  | cons part rest ih =>
      cases rest with
      | nil => simp [List.intercalate]
      | cons next rest =>
          rw [List.intercalate_cons_cons, irisOf_append, irisOf_append, h, ih]
          simp

@[simp] theorem irisOf_spaced (parts : List (List Token)) :
    irisOf (spaced parts) = parts.flatMap irisOf :=
  irisOf_intercalate rfl parts

@[simp] theorem irisOf_braced (parts : List (List Token)) :
    irisOf (braced parts) = parts.flatMap irisOf := by
  unfold braced
  split
  next h => simp [List.isEmpty_iff.mp h]
  next => simp

@[simp] theorem irisOf_parenthesized (ts : List Token) : irisOf (parenthesized ts) = irisOf ts := by
  simp [parenthesized]

@[simp] theorem irisOf_parenthesizedIf (condition : Bool) (ts : List Token) :
    irisOf (parenthesizedIf condition ts) = irisOf ts := by
  cases condition <;> simp [parenthesizedIf]

@[simp] theorem irisOf_line (ts : List Token) : irisOf (line ts) = irisOf ts := by
  simp [line]

@[simp] theorem irisOf_headTokens (distinct : Bool) (projection : Option (List Var)) :
    irisOf (headTokens distinct projection) = [] := by
  unfold headTokens
  cases projection <;> cases distinct <;> simp

@[simp] theorem irisOf_modifierTokens (gap : String) (keys : List (List Token))
    (limit offset : Option Nat) :
    irisOf (modifierTokens gap keys limit offset) = keys.flatMap irisOf := by
  unfold modifierTokens
  cases keys <;> cases limit <;> cases offset <;> simp

@[simp] theorem Literal.iris_tokens (l : Literal) : irisOf l.tokens = l.iris := by
  cases l <;> rfl

@[simp] theorem Term.iris_tokens (t : Term) : irisOf t.tokens = t.iris := by
  cases t with
  | literal l => exact l.iris_tokens
  | var | iri | blank => rfl

@[simp] theorem Path.iris_tokens (p : Path) : irisOf p.tokens = p.iris := by
  induction p with
  | iri => rfl
  | inverse p ih | zeroOrMore p ih => simp [tokens, iris, ih]

@[simp] theorem Predicate.iris_tokens (p : Predicate) : irisOf p.tokens = p.iris := by
  cases p with
  | path p => exact p.iris_tokens
  | var | iri => rfl

@[simp] theorem Triple.iris_tokens (t : Triple) : irisOf t.tokens = t.iris := by
  simp [tokens, iris]

/-- A block without triples, which a group leaves out, has no IRI. -/
theorem Pattern.iris_of_isVoid {p : Pattern} (h : p.isVoid = true) : p.iris = [] := by
  unfold isVoid at h
  split at h
  · rfl
  · cases h

/-- A filter has the IRIs of its expression, with parentheses around it or not. -/
theorem Pattern.iris_filter {e : Expression} (h : irisOf e.tokens = e.iris) :
    irisOf (Pattern.filter e).tokens = e.iris := by
  cases e with
  | exist g | notExist g => simpa [Pattern.tokens, Expression.tokens] using h
  | var | literal | iri | binary | not | call => simpa [Pattern.tokens] using h

mutual

/-- The tokens of an expression have its IRIs, in their order. -/
theorem Expression.iris_tokens : ∀ e : Expression, irisOf e.tokens = e.iris
  | .var _ => rfl
  | .literal l => l.iris_tokens
  | .iri _ => rfl
  | .binary op l r => by
      simp [Expression.tokens, Expression.iris, l.iris_tokens, r.iris_tokens]
  | .not e => by simp [Expression.tokens, Expression.iris, e.iris_tokens]
  | .call f args => by
      rw [Expression.tokens, Expression.iris, irisOf_word, irisOf_parenthesized,
        irisOf_intercalate rfl, iris_argumentTokens args]
  | .exist g => by simp [Expression.tokens, Expression.iris, iris_groupTokens g]
  | .notExist g => by simp [Expression.tokens, Expression.iris, iris_groupTokens g]

theorem iris_argumentTokens : ∀ args : List Expression,
    (argumentTokens args).flatMap irisOf = argumentIris args
  | [] => rfl
  | e :: rest => by
      simp [argumentTokens, argumentIris, e.iris_tokens, iris_argumentTokens rest]

/-- The tokens of a pattern have its IRIs. -/
theorem Pattern.iris_tokens : ∀ p : Pattern, irisOf p.tokens = p.iris
  | .triples ts => by simp [Pattern.tokens, Pattern.iris, List.flatMap_map]
  | .optional g => by simp [Pattern.tokens, Pattern.iris, iris_groupTokens g]
  | .filter e => by rw [Pattern.iris, Pattern.iris_filter e.iris_tokens]
  | .bind e v => by simp [Pattern.tokens, Pattern.iris, e.iris_tokens]
  | .group g => by simp [Pattern.tokens, Pattern.iris, iris_groupTokens g]
  | .service endpoint silent g => by
      cases silent <;> simp [Pattern.tokens, Pattern.iris, iris_groupTokens g]
  | .subselect q => by simp [Pattern.tokens, Pattern.iris, q.iris_tokens]

theorem iris_groupTokens : ∀ g : List Pattern, (groupTokens g).flatMap irisOf = groupIris g
  | [] => rfl
  | p :: rest => by
      rw [groupTokens, groupIris]
      split
      next h => rw [p.iris_of_isVoid h, iris_groupTokens rest, List.nil_append]
      next => rw [List.flatMap_cons, p.iris_tokens, iris_groupTokens rest]

theorem Select.iris_tokens : ∀ q : Select, irisOf q.tokens = q.iris
  | ⟨distinct, projection, body, ⟨orderBy, limit, offset⟩⟩ => by
      simp [Select.tokens, Select.iris, iris_groupTokens body, iris_orderTokens orderBy]

theorem iris_orderTokens : ∀ keys : List OrderCondition,
    (orderTokens keys).flatMap irisOf = orderIris keys
  | [] => rfl
  | ⟨e, descending⟩ :: rest => by
      simp [orderTokens, orderIris, e.iris_tokens, iris_orderTokens rest]

end

/-! ## The IRIs of a document -/

/-- The tokens of a template have the IRIs of its triples. -/
@[simp] theorem iris_templateTokens (ts : List Triple) :
    irisOf (templateTokens ts) = ts.flatMap Triple.iris := by
  induction ts with
  | nil => rfl
  | cons t rest ih => simp_all [templateTokens]

@[simp] theorem iris_blockTokens (body : List Pattern) :
    irisOf (blockTokens body) = groupIris body := by
  induction body with
  | nil => rfl
  | cons p rest ih =>
      rw [blockTokens, List.flatMap_cons, irisOf_append, groupIris]
      congr 1
      cases p with
      | triples ts => exact iris_templateTokens ts
      | optional | filter | bind | group | service | subselect =>
          exact (irisOf_line _).trans (Pattern.iris_tokens _)

@[simp] theorem irisOf_blockOf (keyword lines : List Token) :
    irisOf (blockOf keyword lines) = irisOf keyword ++ irisOf lines := by
  simp [blockOf]

@[simp] theorem iris_clauseTokens (keyword : String) (ts : List Triple) :
    irisOf (clauseTokens keyword ts) = ts.flatMap Triple.iris := by
  unfold clauseTokens
  split
  next h => simp [List.isEmpty_iff.mp h]
  next => simp

/-- The tokens of an operation have its IRIs. -/
theorem Operation.iris_document (op : Operation) : irisOf op.document = op.iris := by
  cases op with
  | insertData ts => simp [document, iris]
  | modify delete insert body => simp [document, iris]

/-- The tokens of a query or an update have the IRIs of its tree, in the same order. -/
theorem Document.iris_tokens (d : Document) : irisOf d.tokens = d.iris := by
  cases d with
  | select q =>
      obtain ⟨distinct, projection, body, ⟨orderBy, limit, offset⟩⟩ := q
      simp [tokens, iris, Select.document, Select.iris, Modifiers.tokens, iris_orderTokens]
  | construct q =>
      simp [tokens, iris, Construct.document, Modifiers.tokens, iris_orderTokens]
  | update u =>
      rw [tokens, iris, updateDocument, irisOf_intercalate rfl, List.flatMap_map]
      exact List.flatMap_congr fun op _ => op.iris_document

/-! ## Styles -/

/-- The stretch of text that a token becomes.  Only its IRI depends on the style. -/
def Token.stretch : Token → Stretch
  | .iri i => .iri i
  | t => .verbatim (t.text .full)

/-- A token and its stretch are the same IRI. -/
theorem Token.iri?_stretch (t : Token) : t.stretch.iri? = t.iri? := by
  cases t <;> rfl

/-- In the full style IRIs are written in full. -/
theorem Token.text_full (t : Token) : t.text .full = t.stretch.text inFull := by
  cases t <;> rfl

/-- In the compact style IRIs are shortened. -/
theorem Token.text_compact (ns : Namespaces) (t : Token) :
    t.text (.compact ns) = t.stretch.text ns.shorten := by
  cases t with
  | iri i =>
      simp only [text, stretch, Stretch.text, IriStyle.compactForm?, Namespaces.shorten, inFull]
      cases ns.split? i with
      | none => rfl
      | some parts => cases hlocal : isLocalName parts.2 <;> simp [Option.filter, hlocal]
  | _ => rfl

/-- A text is that of its stretches, if the style writes each token as its stretch. -/
theorem textOf_eq_textWith {style : IriStyle} {write : String → String}
    (h : ∀ t : Token, t.text style = t.stretch.text write) (ts : List Token) :
    textOf style ts = textWith write (ts.map Token.stretch) := by
  rw [textOf, textWith, List.map_map]
  exact congrArg String.join (List.map_congr_left fun t _ => h t)

/-- The IRIs of the stretches are those of the tokens. -/
theorem iri?_stretches (ts : List Token) :
    (ts.map Token.stretch).filterMap Stretch.iri? = irisOf ts := by
  rw [List.filterMap_map, irisOf]
  exact List.filterMap_congr fun t _ => t.iri?_stretch

/-- A token needs a prefix exactly if it is an IRI that the map shortens with it. -/
theorem Token.usedPrefix?_compact {ns : Namespaces} {t : Token} {name : String} :
    t.usedPrefix? (.compact ns) = some name ↔
      ∃ i, t.iri? = some i ∧ ∃ rest, ns.Shortens i name rest := by
  cases t with
  | iri i =>
      simp [usedPrefix?, iri?, IriStyle.compactForm?, Namespaces.Shortens,
        Option.filter_eq_some_iff]
  | _ => simp [usedPrefix?, iri?]

/-- The declared prefixes are those with which the map shortens IRIs of the tokens. -/
theorem mem_usedPrefixes {ns : Namespaces} {ts : List Token} {e : String × String} :
    e ∈ usedPrefixes (.compact ns) ts ↔
      e ∈ ns.entries ∧ ∃ i ∈ irisOf ts, ∃ rest, ns.Shortens i e.1 rest := by
  have hused : e.1 ∈ ts.filterMap (Token.usedPrefix? (.compact ns)) ↔
      ∃ i ∈ irisOf ts, ∃ rest, ns.Shortens i e.1 rest := by
    simp only [irisOf, List.mem_filterMap, Token.usedPrefix?_compact]
    constructor
    · rintro ⟨t, ht, i, hi, hshort⟩
      exact ⟨i, ⟨t, ht, hi⟩, hshort⟩
    · rintro ⟨i, ⟨t, ht, hi⟩, hshort⟩
      exact ⟨t, ht, i, hi, hshort⟩
  simp only [usedPrefixes, List.mem_filter, List.contains_iff_mem, hused]

/-- **Prefixed and full text say the same.**  A query or an update of any form is laid out
in stretches, whose IRIs are those of its tree.  The full text writes each of them between
angle brackets and declares nothing.  The compact text writes those with prefix and local
name that the namespace map shortens to a local name, all else as the full text has it,
and in front of it, in ascending order and once each, the declarations of exactly the
prefixes in use, with stems from which the IRIs come back. -/
theorem Document.styles_agree (ns : Namespaces) (d : Document) :
    ∃ (body : List Stretch) (header : List (String × String)),
      body.filterMap Stretch.iri? = d.iris ∧
      documentOf .full d.tokens = textWith inFull body ∧
      documentOf (.compact ns) d.tokens =
        String.join (header.map fun e => "PREFIX " ++ e.1 ++ ": <" ++ e.2 ++ ">\n") ++
          textWith ns.shorten body ∧
      header.Pairwise (fun a b => a.1 < b.1) ∧
      (∀ name, name ∈ header.map Prod.fst ↔ ∃ i ∈ d.iris, ∃ rest, ns.Shortens i name rest) ∧
      ∀ e ∈ header, ∀ i rest, ns.Shortens i e.1 rest → e.2 ++ rest = i := by
  refine ⟨d.tokens.map Token.stretch, usedPrefixes (.compact ns) d.tokens, ?iris, ?full, ?compact,
    ?sorted, ?used, ?stems⟩
  case iris =>
    rw [iri?_stretches, d.iris_tokens]
  case full =>
    rw [documentOf, textOf_eq_textWith Token.text_full]
    rfl
  case compact =>
    rw [documentOf, textOf_eq_textWith (Token.text_compact ns)]
    rfl
  case sorted =>
    exact ns.sorted.filter _
  case used =>
    intro name
    rw [← d.iris_tokens]
    constructor
    · intro hname
      obtain ⟨e, he, rfl⟩ := List.mem_map.mp hname
      exact (mem_usedPrefixes.mp he).2
    · rintro ⟨i, hi, rest, hshort⟩
      obtain ⟨stem, hstem, _⟩ := Namespaces.split?_spec hshort.1
      refine List.mem_map.mpr ⟨(name, stem), ?_, rfl⟩
      exact mem_usedPrefixes.mpr ⟨Namespaces.get?_eq_some.mp hstem, i, hi, rest, hshort⟩
  case stems =>
    intro e he i rest hshort
    obtain ⟨stem, hstem, happend, _⟩ := Namespaces.split?_spec hshort.1
    have hentry := Namespaces.get?_eq_some.mpr (mem_usedPrefixes.mp he).1
    rw [Option.some.inj (hentry.symm.trans hstem), happend]

end Sparql

end ObjectGraph
