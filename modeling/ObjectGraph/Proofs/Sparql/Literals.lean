import ObjectGraph.Proofs.Sparql.Atoms
import ObjectGraph.Proofs.Sparql.IriTokens

/-!
# Literals in a text

A literal is read from its first quotation mark on: a backslash stands with the next
character for one character, a line end may not occur, and the first quotation mark without
a backslash in front ends it (`readQuoted?`).  Each character of a text is written so that
it is read back and the reader goes on behind it, whatever follows; hence so is the whole
text (`readQuoted?_escapeLiteral`).

A reader that goes through a whole query meets literals and the characters between them
(`Scans`).  If no name in the query has a quotation mark, what it meets are the literals of
the query, each with its text, and all else as it was written (`scans_iff`).  The text of a
literal does not matter to anything around it.
-/

namespace ObjectGraph.Sparql

/-! ## One literal -/

/-- The character that a character stands for behind a backslash. -/
def unescape? : Char → Option Char
  | 't' => some '\t'
  | 'b' => some '\x08'
  | 'n' => some '\n'
  | 'r' => some '\r'
  | 'f' => some '\x0c'
  | '"' => some '"'
  | '\x27' => some '\x27'
  | '\\' => some '\\'
  | _ => none

/-- Whether a character stands for itself in a literal. -/
def isPlainChar (c : Char) : Bool :=
  !(['"', '\\', '\n', '\r'].contains c)

/-- Reads on to the end of a literal: its characters, and what follows it. -/
def readBody? : List Char → Option (List Char × List Char)
  | '"' :: rest => some ([], rest)
  | '\\' :: e :: rest =>
    match unescape? e, readBody? rest with
    | some c, some (body, after) => some (c :: body, after)
    | _, _ => none
  | c :: rest =>
    if isPlainChar c then
      (readBody? rest).map fun (body, after) => (c :: body, after)
    else none
  | [] => none

/-- Reads a literal: the text that it stands for, and what follows it. -/
def readQuoted? : List Char → Option (String × List Char)
  | '"' :: rest => (readBody? rest).map fun (body, after) => (String.ofList body, after)
  | _ => none

/-- An escape is read as the character that it stands for. -/
theorem readBody?_escape {e c : Char} {rest body after : List Char} (he : unescape? e = some c)
    (h : readBody? rest = some (body, after)) :
    readBody? ('\\' :: e :: rest) = some (c :: body, after) := by
  simp [readBody?, he, h]

/-- Every other character is read as itself. -/
theorem readBody?_plain {c : Char} {rest body after : List Char} (hc : isPlainChar c = true)
    (h : readBody? rest = some (body, after)) :
    readBody? (c :: rest) = some (c :: body, after) := by
  have hquote : c ≠ '"' := by
    rintro rfl
    cases hc
  have hbackslash : c ≠ '\\' := by
    rintro rfl
    cases hc
  rw [readBody?]
  · simp [hc, h]
  · exact fun heq => absurd heq hquote
  · exact fun e rest heq => absurd heq hbackslash

/-- A character is read back, and the reader stands behind it. -/
theorem readBody?_escapeLiteralChar (c : Char) {rest body after : List Char}
    (h : readBody? rest = some (body, after)) :
    readBody? (Text.escapeLiteralChar c ++ rest) = some (c :: body, after) := by
  unfold Text.escapeLiteralChar
  split
  -- five characters stand behind a backslash, and whatever is none of them for itself
  · exact readBody?_escape rfl h
  · exact readBody?_escape rfl h
  · exact readBody?_escape rfl h
  · exact readBody?_escape rfl h
  · exact readBody?_escape rfl h
  next hbackslash hquote hline hreturn _ =>
    refine readBody?_plain ?_ h
    simpa [isPlainChar] using And.intro hquote ⟨hbackslash, hline, hreturn⟩

/-- What is escaped character by character is read back up to the quotation mark. -/
theorem readBody?_flatMap (cs after : List Char) :
    readBody? (cs.flatMap Text.escapeLiteralChar ++ '"' :: after) = some (cs, after) := by
  induction cs with
  | nil => rfl
  | cons c cs ih =>
      rw [List.flatMap_cons, List.append_assoc]
      exact readBody?_escapeLiteralChar c ih

/-- **A literal is read back**, and the reader stands at what follows it. -/
theorem readQuoted?_escapeLiteral (s : String) (after : List Char) :
    readQuoted? ('"' :: (Text.escapeLiteral s).toList ++ '"' :: after) = some (s, after) := by
  simp [readQuoted?, Text.escapeLiteral, readBody?_flatMap]

/-! ## All literals of a text -/

/-- What a reader meets who looks for literals. -/
inductive Piece where
  | literal (text : String)
  /-- A character outside of literals. -/
  | sign (c : Char)

/-- The pieces of a text, from left to right. -/
inductive Scans : List Char → List Piece → Prop
  | nil : Scans [] []
  | sign {c : Char} {cs : List Char} {ps : List Piece} (hc : c ≠ '"') (rest : Scans cs ps) :
      Scans (c :: cs) (.sign c :: ps)
  | literal {cs after : List Char} {s : String} {ps : List Piece}
      (hread : readQuoted? cs = some (s, after)) (rest : Scans after ps) :
      Scans cs (.literal s :: ps)

/-- Characters outside of literals. -/
def signs (s : String) : List Piece :=
  s.toList.map .sign

/-- A literal starts with a quotation mark. -/
theorem readQuoted?_ne_quote {c : Char} (h : c ≠ '"') (cs : List Char) :
    readQuoted? (c :: cs) = none := by
  unfold readQuoted?
  split
  next heq => exact absurd (List.cons.inj heq).1 h
  next => rfl

namespace Scans

variable {cs after : List Char} {s : String} {ps : List Piece}

/-- There is nothing in an empty text. -/
theorem nil_iff : Scans [] ps ↔ ps = [] := by
  constructor
  · intro h
    cases h with
    | nil => rfl
    | literal hread => cases hread
  · rintro rfl
    exact .nil

/-- A character that is no quotation mark is a sign. -/
theorem sign_iff {c : Char} (hc : c ≠ '"') :
    Scans (c :: cs) ps ↔ ∃ qs, Scans cs qs ∧ ps = .sign c :: qs := by
  constructor
  · intro h
    cases h with
    | sign _ rest => exact ⟨_, rest, rfl⟩
    | literal hread =>
        rw [readQuoted?_ne_quote hc] at hread
        cases hread
  · rintro ⟨qs, rest, rfl⟩
    exact .sign hc rest

/-- Where a literal can be read it is the first piece. -/
theorem literal_iff (hread : readQuoted? cs = some (s, after)) :
    Scans cs ps ↔ ∃ qs, Scans after qs ∧ ps = .literal s :: qs := by
  constructor
  · intro h
    cases h with
    | nil => cases hread
    | sign hc =>
        rw [readQuoted?_ne_quote hc] at hread
        cases hread
    | literal hread' rest =>
        rw [hread'] at hread
        cases hread
        exact ⟨_, rest, rfl⟩
  · rintro ⟨qs, rest, rfl⟩
    exact .literal hread rest

/-- In front of anything, characters of which none is a quotation mark are signs. -/
theorem signs_iff {s : String} (hs : Unquoted s) :
    Scans (s.toList ++ after) ps ↔ ∃ qs, Scans after qs ∧ ps = signs s ++ qs := by
  unfold signs
  unfold Unquoted at hs
  generalize s.toList = cs at hs
  induction cs generalizing ps with
  | nil => simp
  | cons c cs ih =>
      obtain ⟨hc, hcs⟩ := not_or.mp (mt List.mem_cons.mpr hs)
      rw [List.cons_append, sign_iff (Ne.symm hc)]
      constructor
      · rintro ⟨qs, hqs, rfl⟩
        obtain ⟨rs, hrs, rfl⟩ := (ih hcs).mp hqs
        exact ⟨rs, hrs, rfl⟩
      · rintro ⟨rs, hrs, rfl⟩
        exact ⟨_, (ih hcs).mpr ⟨rs, hrs, rfl⟩, rfl⟩

end Scans

/-! ## The pieces of a query -/

/-- An atom without a quotation mark. -/
def Atom.Clean : Atom → Prop
  | .var v => Unquoted v.name
  | .iri s | .tag s | .label s => Unquoted s

/-- No prefix name and no stem that a style may write has a quotation mark. -/
def IriStyle.Clean : IriStyle → Prop
  | .full => True
  | .compact ns => ∀ e ∈ ns.entries, Unquoted e.1 ∧ Unquoted e.2

/-- Texts that are joined have a quotation mark if one of them does. -/
theorem unquoted_append {s t : String} : Unquoted (s ++ t) ↔ Unquoted s ∧ Unquoted t := by
  simp [Unquoted]

/-- Texts without quotation marks are joined to such a text. -/
theorem unquoted_join {parts : List String} (h : ∀ s ∈ parts, Unquoted s) :
    Unquoted (String.join parts) := by
  unfold Unquoted
  rw [String.toList_join, List.mem_flatMap]
  rintro ⟨s, hs, hmem⟩
  exact h s hs hmem

namespace Token

/-- The pieces of a token. -/
def pieces (style : IriStyle) : Token → List Piece
  | .quoted s => [.literal s]
  | t => signs (t.text style)

/-- An IRI without a quotation mark has none in any style. -/
theorem unquoted_iri {style : IriStyle} (hstyle : style.Clean) {i : String} (hi : Unquoted i) :
    Unquoted (Token.text style (.iri i)) := by
  unfold Token.text
  dsimp only
  split
  next name rest hform =>
    obtain ⟨ns, rfl, -, stem, hstem, rfl⟩ := IriStyle.compactForm?_spec hform
    have hname : Unquoted name := (hstyle _ (Namespaces.get?_eq_some.mp hstem)).1
    simp only [unquoted_append]
    exact ⟨⟨hname, by decide⟩, (unquoted_append.mp hi).2⟩
  next =>
    simp only [unquoted_append]
    exact ⟨⟨by decide, hi⟩, by decide⟩

/-- In front of anything, a token has its pieces. -/
theorem scans_iff {style : IriStyle} (hstyle : style.Clean) {t : Token} (ht : t.Fits Atom.Clean)
    {after : List Char} {ps : List Piece} :
    Scans ((t.text style).toList ++ after) ps ↔
      ∃ qs, Scans after qs ∧ ps = t.pieces style ++ qs := by
  cases t with
  | quoted s =>
      -- the only token in which the reader meets quotation marks, namely its own two
      have htext : (Token.text style (.quoted s)).toList ++ after =
          '"' :: (Text.escapeLiteral s).toList ++ '"' :: after := by
        simp [text]
      rw [htext]
      exact Scans.literal_iff (readQuoted?_escapeLiteral s after)
  | word s | gap s => exact Scans.signs_iff ht
  | iri i => exact Scans.signs_iff (unquoted_iri hstyle ht)
  | «variable» v => exact Scans.signs_iff (unquoted_append.mpr ⟨by decide, ht⟩)
  | language tag => exact Scans.signs_iff (unquoted_append.mpr ⟨by decide, ht⟩)
  | blank label => exact Scans.signs_iff (unquoted_append.mpr ⟨by decide, ht⟩)

end Token

/-- The pieces of a query: its declarations and its tokens. -/
def piecesOf (style : IriStyle) (ts : List Token) : List Piece :=
  signs (declarations style ts) ++ ts.flatMap (Token.pieces style)

/-- The declarations of a query have no quotation mark. -/
theorem unquoted_declarations {style : IriStyle} (hstyle : style.Clean) (ts : List Token) :
    Unquoted (declarations style ts) := by
  refine unquoted_join (List.forall_mem_map.mpr fun e he => ?_)
  cases style with
  | full => cases he
  | compact ns =>
      obtain ⟨hname, hstem⟩ := hstyle e (List.mem_of_mem_filter he)
      simp only [declaration, unquoted_append]
      exact ⟨⟨⟨⟨by decide, hname⟩, by decide⟩, hstem⟩, by decide⟩

/-- A query has exactly the pieces of its tokens. -/
theorem scans_textOf_iff {style : IriStyle} (hstyle : style.Clean) {ts : List Token}
    (hts : Fit Atom.Clean ts) {ps : List Piece} :
    Scans (textOf style ts).toList ps ↔ ps = ts.flatMap (Token.pieces style) := by
  rw [toList_textOf]
  induction ts generalizing ps with
  | nil => exact Scans.nil_iff
  | cons t ts ih =>
      obtain ⟨ht, hts⟩ := fit_cons.mp hts
      rw [List.flatMap_cons, Token.scans_iff hstyle ht]
      simp [ih hts]

/-- **The literals of a query are read back from its text**, and all else is met as it was
written. -/
theorem scans_iff {style : IriStyle} (hstyle : style.Clean) {ts : List Token}
    (hts : Fit Atom.Clean ts) {ps : List Piece} :
    Scans (documentOf style ts).toList ps ↔ ps = piecesOf style ts := by
  rw [documentOf, String.toList_append, Scans.signs_iff (unquoted_declarations hstyle ts)]
  simp [scans_textOf_iff hstyle hts, piecesOf]

end ObjectGraph.Sparql
