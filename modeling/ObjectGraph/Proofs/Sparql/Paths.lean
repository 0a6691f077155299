import ObjectGraph.Proofs.Sparql.Styles

/-!
# The grammar of paths

A path is written with a sign in front of its operand or behind it, and with parentheses
around an operand that is not a single IRI.  What the signs are does not matter to the
grammar: `PathPhrase` takes them from `PathSigns`, once as tokens and once as characters,
where an IRI is what its style makes of it.

As long as an IRI cannot be taken for anything else, the outermost signs tell which rule was
used, so nothing can be read in two ways (`PathPhrase.unique`).  The tokens of a path and
its text are phrases of it (`Path.phrase_tokens`, `Path.phrase_text`).
-/

namespace ObjectGraph.Sparql

/-! ## The grammar -/

/-- The signs with which paths are written, and how an IRI is. -/
structure PathSigns (α : Type) where
  inverse : α
  star : α
  left : α
  right : α
  iri : String → List α

/-- The phrases of paths, and those that an operator can be put to. -/
inductive PathPhrase {α : Type} (signs : PathSigns α) : Bool → List α → Path → Prop
  | iri (i : String) : PathPhrase signs true (signs.iri i) (.iri i)
  | parenthesized {s : List α} {p : Path} (inner : PathPhrase signs false s p) :
      PathPhrase signs true (signs.left :: s ++ [signs.right]) p
  | inverse {s : List α} {p : Path} (operand : PathPhrase signs true s p) :
      PathPhrase signs false (signs.inverse :: s) (.inverse p)
  | zeroOrMore {s : List α} {p : Path} (operand : PathPhrase signs true s p) :
      PathPhrase signs false (s ++ [signs.star]) (.zeroOrMore p)
  | primary {s : List α} {p : Path} (phrase : PathPhrase signs true s p) :
      PathPhrase signs false s p

/-- Every IRI is written differently, and none like the edge of something else. -/
structure PathSigns.Distinct {α : Type} (signs : PathSigns α) : Prop where
  iri_injective : ∀ i j, signs.iri i = signs.iri j → i = j
  iri_first : ∀ i, ∃ a s, signs.iri i = a :: s ∧ a ≠ signs.inverse ∧ a ≠ signs.left
  iri_last : ∀ i, (signs.iri i).getLast? ≠ some signs.star
  left_ne : signs.left ≠ signs.inverse
  right_ne : signs.right ≠ signs.star

namespace PathPhrase

variable {α : Type} {signs : PathSigns α} {primary : Bool} {s : List α} {p q : Path}

/-- A phrase that an operator can be put to does not start with the sign for inverse paths. -/
theorem first_ne (hsigns : signs.Distinct) (h : PathPhrase signs true s p) :
    ∃ a t, s = a :: t ∧ a ≠ signs.inverse := by
  cases h with
  | iri i =>
      obtain ⟨a, t, hi, ha, -⟩ := hsigns.iri_first i
      exact ⟨a, t, hi, ha⟩
  | parenthesized => exact ⟨_, _, rfl, hsigns.left_ne⟩

/-- A phrase that an operator can be put to does not end with the sign for repeated paths. -/
theorem last_ne (hsigns : signs.Distinct) (h : PathPhrase signs true s p) :
    s.getLast? ≠ some signs.star := by
  cases h with
  | iri i => exact hsigns.iri_last i
  | parenthesized => simpa [List.getLast?_cons] using hsigns.right_ne

/-- Nothing is a phrase of two paths. -/
theorem unique (hsigns : signs.Distinct) (h : PathPhrase signs primary s p)
    (h' : PathPhrase signs primary s q) : p = q := by
  induction h generalizing q with
  | iri i =>
      generalize hs : signs.iri i = s at h'
      cases h' with
      | iri j => rw [hsigns.iri_injective i j hs]
      | parenthesized =>
          obtain ⟨a, t, hi, -, ha⟩ := hsigns.iri_first i
          rw [hi] at hs
          exact absurd (List.cons.inj hs).1 ha
  | @parenthesized t p inner ih =>
      generalize hs : signs.left :: t ++ [signs.right] = s at h'
      cases h' with
      | iri j =>
          obtain ⟨a, u, hj, -, ha⟩ := hsigns.iri_first j
          rw [hj] at hs
          exact absurd (List.cons.inj hs).1.symm ha
      | parenthesized inner' =>
          obtain rfl : t = _ := by simpa using hs
          exact ih inner'
  | @inverse t p operand ih =>
      generalize hs : signs.inverse :: t = s at h'
      cases h' with
      | inverse operand' =>
          obtain rfl : t = _ := by simpa using hs
          rw [ih operand']
      | zeroOrMore operand' =>
          obtain ⟨a, u, rfl, ha⟩ := operand'.first_ne hsigns
          exact absurd (List.cons.inj hs).1.symm ha
      | primary operand' =>
          obtain ⟨a, u, rfl, ha⟩ := operand'.first_ne hsigns
          exact absurd (List.cons.inj hs).1.symm ha
  | @zeroOrMore t p operand ih =>
      generalize hs : t ++ [signs.star] = s at h'
      cases h' with
      | inverse operand' =>
          obtain ⟨a, u, rfl, ha⟩ := operand.first_ne hsigns
          exact absurd (List.cons.inj hs).1 ha
      | zeroOrMore operand' =>
          obtain rfl : t = _ := by simpa using hs
          rw [ih operand']
      | primary operand' => exact absurd (by simp [← hs]) (operand'.last_ne hsigns)
  | @primary t p operand ih =>
      cases h' with
      | inverse operand' =>
          obtain ⟨a, u, hs, ha⟩ := operand.first_ne hsigns
          exact absurd (List.cons.inj hs).1.symm ha
      | zeroOrMore operand' => exact absurd (by simp) (operand.last_ne hsigns)
      | primary operand' => exact ih operand'

/-- A phrase of one alphabet is one of another in which each sign stands for its sign. -/
theorem flatMap {β : Type} {signs' : PathSigns β} {f : α → List β}
    (hinverse : f signs.inverse = [signs'.inverse]) (hstar : f signs.star = [signs'.star])
    (hleft : f signs.left = [signs'.left]) (hright : f signs.right = [signs'.right])
    (hiri : ∀ i, (signs.iri i).flatMap f = signs'.iri i) (h : PathPhrase signs primary s p) :
    PathPhrase signs' primary (s.flatMap f) p := by
  induction h with
  | iri i => exact hiri i ▸ .iri i
  | parenthesized _ ih => simpa [hleft, hright] using ih.parenthesized
  | inverse _ ih => simpa [hinverse] using ih.inverse
  | zeroOrMore _ ih => simpa [hstar] using ih.zeroOrMore
  | primary _ ih => exact ih.primary

end PathPhrase

/-! ## Tokens -/

/-- Paths as tokens. -/
def PathSigns.tokens : PathSigns Token where
  inverse := .word "^"
  star := .word "*"
  left := .word "("
  right := .word ")"
  iri i := [.iri i]

/-- As tokens all IRIs and signs are different. -/
theorem PathSigns.tokens_distinct : PathSigns.tokens.Distinct where
  iri_injective := by simp [tokens]
  iri_first i := ⟨.iri i, [], rfl, by simp [tokens], by simp [tokens]⟩
  iri_last := by simp [tokens]
  left_ne := by decide
  right_ne := by decide

/-- Parentheses make an operand of every path that is not simple. -/
theorem Path.phrase_operand {p : Path} (h : PathPhrase .tokens false p.tokens p) :
    PathPhrase .tokens true (parenthesizedIf (!p.isSimple) p.tokens) p := by
  cases p with
  | iri i => exact .iri i
  | inverse | zeroOrMore => exact h.parenthesized

/-- The tokens of a path are read as it. -/
theorem Path.phrase_tokens (p : Path) : PathPhrase .tokens false p.tokens p := by
  induction p with
  | iri i => exact .primary (.iri i)
  | inverse p ih => exact (phrase_operand ih).inverse
  | zeroOrMore p ih => exact (phrase_operand ih).zeroOrMore

/-- The tokens of a path are a phrase of that path alone. -/
theorem Path.phrase_tokens_iff {p q : Path} :
    PathPhrase .tokens false p.tokens q ↔ q = p := by
  refine ⟨fun h => h.unique PathSigns.tokens_distinct p.phrase_tokens, ?_⟩
  rintro rfl
  exact q.phrase_tokens

/-! ## Text -/

/-- Paths as characters, with IRIs in a style. -/
def PathSigns.text (style : IriStyle) : PathSigns Char where
  inverse := '^'
  star := '*'
  left := '('
  right := ')'
  iri i := (Token.text style (.iri i)).toList

/-- No prefix starts with a sign that may stand in front of an IRI. -/
def IriStyle.Legible : IriStyle → Prop
  | .full => True
  | .compact ns => ∀ e ∈ ns.entries, ∀ c ∈ e.1.toList.head?, c ≠ '^' ∧ c ≠ '('

/-- An IRI stands in full, or as a prefix with a local name. -/
theorem Token.text_iri (style : IriStyle) (i : String) :
    Token.text style (.iri i) = inFull i ∨
      ∃ ns name rest, style = .compact ns ∧ ns.Shortens i name rest ∧
        Token.text style (.iri i) = name ++ ":" ++ rest := by
  cases style with
  | full => exact .inl rfl
  | compact ns =>
      have htext : Token.text (.compact ns) (.iri i) = ns.shorten i :=
        Token.text_compact ns (.iri i)
      rw [htext, Namespaces.shorten]
      cases hsplit : ns.split? i with
      | none => exact .inl rfl
      | some parts =>
          cases hlocal : isLocalName parts.2 with
          | false => simp [hlocal]
          | true => exact .inr ⟨ns, parts.1, parts.2, rfl, ⟨hsplit, hlocal⟩, by simp [hlocal]⟩

/-- A local name has the characters that the printer lets through. -/
theorem isLocalChar_of_mem {s : String} (h : isLocalName s = true) :
    ∀ c ∈ s.toList, isLocalChar c = true := by
  unfold isLocalName at h
  cases hs : s.toList with
  | nil => simp
  | cons d cs =>
      simp only [hs, Bool.and_eq_true, List.all_eq_true] at h
      exact h.1.1.1

/-- A local name ends in a character of local names. -/
theorem getLast?_of_isLocalName (name : String) {rest : String} (h : isLocalName rest = true) :
    ∃ c, (name ++ ":" ++ rest).toList.getLast? = some c ∧ isLocalChar c = true := by
  have hne : rest.toList ≠ [] := by
    intro hnil
    simp [isLocalName, hnil] at h
  refine ⟨rest.toList.getLast hne, ?_, isLocalChar_of_mem h _ (List.getLast_mem hne)⟩
  rw [String.toList_append, List.getLast?_append, List.getLast?_eq_some_getLast hne]
  rfl

/-- An IRI in full ends with its bracket. -/
theorem getLast?_inFull (i : String) : (inFull i).toList.getLast? = some '>' := by
  simp [inFull, List.getLast?_cons]

/-- Behind the last colon stands the local name. -/
theorem takeWhile_of_isLocalName {name rest : String} (h : isLocalName rest = true) :
    (name ++ ":" ++ rest).toList.reverse.takeWhile (· != ':') = rest.toList.reverse := by
  have hfree : ∀ c ∈ rest.toList.reverse, (c != ':') = true := by
    intro c hc
    have hlocal := isLocalChar_of_mem h c (List.mem_reverse.mp hc)
    rw [bne_iff_ne]
    rintro rfl
    exact absurd hlocal (by decide)
  rw [String.toList_append, List.reverse_append, List.takeWhile_append_of_pos hfree]
  simp

/-- A compact IRI has one local part, since that has no colon in it. -/
theorem compact_injective {name name' rest rest' : String} (h : isLocalName rest = true)
    (h' : isLocalName rest' = true) (heq : name ++ ":" ++ rest = name' ++ ":" ++ rest') :
    name = name' ∧ rest = rest' := by
  have hrest : rest.toList.reverse = rest'.toList.reverse := by
    rw [← takeWhile_of_isLocalName h, heq, takeWhile_of_isLocalName h']
  obtain rfl := String.toList_injective (List.reverse_injective hrest)
  refine ⟨?_, rfl⟩
  simpa using heq

/-- IRIs of one style are told apart by their text. -/
theorem Token.text_iri_injective {style : IriStyle} {i j : String}
    (h : Token.text style (.iri i) = Token.text style (.iri j)) : i = j := by
  have hdiffer : ∀ {k name rest : String}, isLocalName rest = true →
      inFull k ≠ name ++ ":" ++ rest := by
    intro k name rest hlocal heq
    obtain ⟨c, hc, hlocal⟩ := getLast?_of_isLocalName name hlocal
    rw [← heq, getLast?_inFull] at hc
    cases hc
    exact absurd hlocal (by decide)
  rcases Token.text_iri style i with hi | ⟨ns, name, rest, rfl, hi, htext⟩
  · rcases Token.text_iri style j with hj | ⟨ns, name, rest, rfl, hj, htext⟩
    · rw [hi, hj] at h
      simpa [inFull] using h
    · exact absurd (hi.symm.trans (h.trans htext)) (hdiffer hj.2)
  · rcases Token.text_iri (.compact ns) j with hj | ⟨_, name', rest', hstyle, hj, htext'⟩
    · exact absurd (hj.symm.trans (h.symm.trans htext)) (hdiffer hi.2)
    · cases hstyle
      obtain ⟨rfl, rfl⟩ := compact_injective hi.2 hj.2 (htext.symm.trans (h.trans htext'))
      obtain ⟨stem, hstem, hi, -⟩ := Namespaces.split?_spec hi.1
      obtain ⟨stem', hstem', hj, -⟩ := Namespaces.split?_spec hj.1
      rw [hstem] at hstem'
      cases hstem'
      exact hi.symm.trans hj

/-- In a legible style all IRIs and signs are written differently. -/
theorem PathSigns.text_distinct {style : IriStyle} (h : style.Legible) :
    (PathSigns.text style).Distinct where
  iri_injective i j hij := Token.text_iri_injective (String.toList_injective hij)
  iri_first i := by
    rcases Token.text_iri style i with hi | ⟨ns, name, rest, rfl, hi, htext⟩
    · exact ⟨'<', i.toList ++ ['>'], by simp [text, hi, inFull], by simp [text], by simp [text]⟩
    · obtain ⟨stem, hstem, -⟩ := Namespaces.split?_spec hi.1
      have hname := h _ (Namespaces.get?_eq_some.mp hstem)
      cases hcs : name.toList with
      | nil =>
          exact ⟨':', rest.toList, by simp [text, htext, hcs], by simp [text], by simp [text]⟩
      | cons c cs =>
          obtain ⟨hinverse, hleft⟩ := hname c (by simp [hcs])
          exact ⟨c, cs ++ ':' :: rest.toList, by simp [text, htext, hcs], hinverse, hleft⟩
  iri_last i := by
    rcases Token.text_iri style i with hi | ⟨ns, name, rest, rfl, hi, htext⟩
    · simp [text, hi, getLast?_inFull]
    · obtain ⟨c, hc, hlocal⟩ := getLast?_of_isLocalName name hi.2
      show (Token.text (.compact ns) (.iri i)).toList.getLast? ≠ some '*'
      rw [htext, hc]
      rintro ⟨⟩
      exact absurd hlocal (by decide)
  left_ne := by simp [text]
  right_ne := by simp [text]

/-- The characters of tokens are those of each. -/
theorem toList_textOf (style : IriStyle) (ts : List Token) :
    (textOf style ts).toList = ts.flatMap fun t => (t.text style).toList := by
  rw [textOf, String.toList_join, List.flatMap_def, List.map_map]
  rfl

/-- The text of a path is read as it, whatever the style. -/
theorem Path.phrase_text (style : IriStyle) (p : Path) :
    PathPhrase (.text style) false (textOf style p.tokens).toList p := by
  rw [toList_textOf]
  refine p.phrase_tokens.flatMap ?_ ?_ ?_ ?_ fun i => ?_
  · simp [PathSigns.tokens, PathSigns.text, Token.text]
  · simp [PathSigns.tokens, PathSigns.text, Token.text]
  · simp [PathSigns.tokens, PathSigns.text, Token.text]
  · simp [PathSigns.tokens, PathSigns.text, Token.text]
  · simp [PathSigns.tokens, PathSigns.text]

/-- The text of a path is a phrase of that path alone. -/
theorem Path.phrase_text_iff {style : IriStyle} (hstyle : style.Legible) {p q : Path} :
    PathPhrase (.text style) false (textOf style p.tokens).toList q ↔ q = p := by
  refine ⟨fun h => h.unique (PathSigns.text_distinct hstyle) (p.phrase_text style), ?_⟩
  rintro rfl
  exact q.phrase_text style

end ObjectGraph.Sparql
