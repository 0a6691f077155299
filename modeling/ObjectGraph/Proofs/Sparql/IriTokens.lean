import ObjectGraph.Proofs.Sparql.Paths

/-!
# IRIs as tokens

The grammar of queries has two tokens for an IRI: the IRI between angle brackets, where
some characters cannot stand, and a prefix name with a local part, each of which is made
of the characters of names.  `IriToken` says which IRI a token denotes; a token denotes
one IRI only (`IriToken.unique`).

A local name, as the compact style tests it, is put together like a local part: the test
has the edges right, that is, the dots and the hyphens.  Its letters and numbers are those
of Unicode, though, and a few of these are no characters of names at all (`strayRanges`)
or cannot come first.  An angle-bracketed IRI is not tested.  So an IRI is written as a
token that denotes it exactly if it avoids these characters (`Token.iriToken_iff`).
-/

namespace ObjectGraph.Sparql

open Text (inRanges)

/-! ## Characters -/

/-- A character that can stand between angle brackets. -/
def isIriChar (c : Char) : Bool :=
  decide (0x20 < c.toNat) && !(['<', '>', '"', '\x7b', '\x7d', '|', '^', '\x60', '\\'].contains c)

/-- The letters of names from U+0080 on. -/
def baseRanges : List (Nat × Nat) :=
  [(0xC0, 0xD6), (0xD8, 0xF6), (0xF8, 0x2FF), (0x370, 0x37D), (0x37F, 0x1FFF),
   (0x200C, 0x200D), (0x2070, 0x218F), (0x2C00, 0x2FEF), (0x3001, 0xD7FF), (0xF900, 0xFDCF),
   (0xFDF0, 0xFFFD), (0x10000, 0xEFFFF)]

/-- The marks of names, which cannot come first. -/
def markRanges : List (Nat × Nat) :=
  [(0xB7, 0xB7), (0x300, 0x36F), (0x203F, 0x2040)]

/-- A letter of names. -/
def isBaseChar (c : Char) : Bool :=
  if c.toNat < 0x80 then c.isAlpha else inRanges baseRanges c.toNat

/-- A mark of names. -/
def isMark (c : Char) : Bool :=
  inRanges markRanges c.toNat

/-- A character that local parts can start with. -/
def isFirstChar (c : Char) : Bool :=
  isBaseChar c || c == '_' || c.isDigit

/-- A character of names. -/
def isNameChar (c : Char) : Bool :=
  isFirstChar c || c == '-' || isMark c

/-- What a prefix of IRIs can be called: nothing, or a letter and characters of names, with
dots between them. -/
def isPrefixName (s : String) : Bool :=
  match s.toList with
  | [] => true
  | c :: rest =>
    isBaseChar c && rest.all (fun d => isNameChar d || d == '.') &&
      (c :: rest).getLast? != some '.'

/-- What can follow a prefix and its colon: characters of names and colons, no mark and no
hyphen first, and dots not at an end. -/
def isLocalPart (s : String) : Bool :=
  match s.toList with
  | [] => false
  | c :: rest =>
    (isFirstChar c || c == ':') && rest.all (fun d => isNameChar d || d == '.' || d == ':') &&
      (c :: rest).getLast? != some '.'

/-- A token for an IRI under the prefixes of a map. -/
inductive IriToken (ns : Namespaces) : List Char → String → Prop
  | full {i : String} (hchars : ∀ c ∈ i.toList, isIriChar c = true) :
      IriToken ns ('<' :: i.toList ++ ['>']) i
  | prefixed {name stem rest : String} (hname : isPrefixName name = true)
      (hrest : isLocalPart rest = true) (hstem : ns.get? name = some stem) :
      IriToken ns (name.toList ++ ':' :: rest.toList) (stem ++ rest)

/-! ## Prefix names -/

/-- The characters of a prefix name are those of names, or dots. -/
theorem nameChar_of_isPrefixName {name : String} (h : isPrefixName name = true) :
    ∀ c ∈ name.toList, isNameChar c = true ∨ c = '.' := by
  unfold isPrefixName at h
  cases hs : name.toList with
  | nil => nofun
  | cons d rest =>
      simp only [hs, Bool.and_eq_true, List.all_eq_true, Bool.or_eq_true, beq_iff_eq] at h
      intro c hc
      rcases List.mem_cons.mp hc with rfl | hc
      · exact .inl (by simp [isNameChar, isFirstChar, h.1.1])
      · exact h.1.2 c hc

/-- Neither a colon nor an angle bracket stands in a prefix name. -/
theorem notMem_of_isPrefixName {name : String} (h : isPrefixName name = true) {c : Char}
    (hc : c = ':' ∨ c = '<') : c ∉ name.toList := by
  intro hmem
  have hname := nameChar_of_isPrefixName h c hmem
  rcases hc with rfl | rfl <;> revert hname <;> decide

/-- A text is cut at its first colon in one way. -/
theorem eq_of_colon {front front' back back' : List Char} (h : ':' ∉ front) (h' : ':' ∉ front')
    (heq : front ++ ':' :: back = front' ++ ':' :: back') : front = front' ∧ back = back' := by
  have hfront : ∀ cs ds : List Char, ':' ∉ cs → (cs ++ ':' :: ds).takeWhile (· != ':') = cs := by
    intro cs ds hcs
    have hfree : ∀ c ∈ cs, (c != ':') = true := fun c hc =>
      bne_iff_ne.mpr fun heq => hcs (heq ▸ hc)
    rw [List.takeWhile_append_of_pos hfree]
    simp
  obtain rfl : front = front' := by
    rw [← hfront front back h, heq, hfront front' back' h']
  simpa using heq

/-- Between a prefix name and its local part and between angle brackets different texts
stand. -/
theorem angled_ne_prefixed {name : String} (hname : isPrefixName name = true)
    {cs rest : List Char} : '<' :: cs ≠ name.toList ++ ':' :: rest := by
  intro heq
  cases hs : name.toList with
  | nil =>
      rw [hs] at heq
      simp at heq
  | cons c front =>
      rw [hs] at heq
      obtain rfl : '<' = c := (List.cons.inj heq).1
      exact notMem_of_isPrefixName hname (.inr rfl) (hs ▸ List.mem_cons_self)

namespace IriToken

variable {ns : Namespaces} {i j : String} {cs : List Char}

/-- An angle-bracketed token denotes what stands between the brackets. -/
theorem full_iff : IriToken ns ('<' :: i.toList ++ ['>']) j ↔
    i = j ∧ ∀ c ∈ i.toList, isIriChar c = true := by
  constructor
  · intro h
    generalize hcs : '<' :: i.toList ++ ['>'] = cs at h
    cases h with
    | full hchars =>
        obtain rfl : i = j := String.toList_injective (by simpa using hcs)
        exact ⟨rfl, hchars⟩
    | prefixed hname => exact (angled_ne_prefixed hname hcs).elim
  · rintro ⟨rfl, hchars⟩
    exact .full hchars

/-- A token with a prefix name denotes the stem of the prefix with the local part. -/
theorem prefixed_iff {name rest : String} (hname : isPrefixName name = true) :
    IriToken ns (name.toList ++ ':' :: rest.toList) j ↔
      isLocalPart rest = true ∧ ∃ stem, ns.get? name = some stem ∧ stem ++ rest = j := by
  constructor
  · intro h
    generalize hcs : name.toList ++ ':' :: rest.toList = cs at h
    cases h with
    | full => exact (angled_ne_prefixed hname hcs.symm).elim
    | prefixed hname' hrest hstem =>
        obtain ⟨hnames, hrests⟩ := eq_of_colon (notMem_of_isPrefixName hname (.inl rfl))
          (notMem_of_isPrefixName hname' (.inl rfl)) hcs
        obtain rfl := String.toList_injective hnames
        obtain rfl := String.toList_injective hrests
        exact ⟨hrest, _, hstem, rfl⟩
  · rintro ⟨hrest, stem, hstem, rfl⟩
    exact .prefixed hname hrest hstem

/-- A token denotes one IRI. -/
theorem unique (h : IriToken ns cs i) (h' : IriToken ns cs j) : i = j := by
  cases h with
  | full => exact (full_iff.mp h').1
  | prefixed hname _ hstem =>
      obtain ⟨-, stem, hstem', rfl⟩ := (prefixed_iff hname).mp h'
      rw [Option.some.inj (hstem.symm.trans hstem')]

end IriToken

/-- An IRI with a token can stand between angle brackets or has the stem of a prefix. -/
theorem IriToken.spelled {ns : Namespaces} {cs : List Char} {i : String} (h : IriToken ns cs i) :
    (∀ c ∈ i.toList, isIriChar c = true) ∨ ∃ e ∈ ns.entries, e.2.toList <+: i.toList := by
  cases h with
  | full hchars => exact .inl hchars
  | @prefixed name stem rest _ _ hstem =>
      exact .inr ⟨(name, stem), Namespaces.get?_eq_some.mp hstem, by simp⟩

/-! ## Local names -/

/-- The letters and numbers that are no characters of names: ordinal indicators,
superscripts, the micro sign, fractions, and circled letters and numbers. -/
def strayRanges : List (Nat × Nat) :=
  [(0xAA, 0xAA), (0xB2, 0xB3), (0xB5, 0xB5), (0xB9, 0xBA), (0xBC, 0xBE), (0x2460, 0x249B),
   (0x24B6, 0x24FF), (0x2776, 0x2793)]

/-- A letter or number that is no character of names. -/
def isStray (c : Char) : Bool :=
  inRanges strayRanges c.toNat

/-- The ranges of letters and marks, those that touch as one. -/
def nameRanges : List (Nat × Nat) :=
  [(0xB7, 0xB7), (0xC0, 0xD6), (0xD8, 0xF6), (0xF8, 0x37D), (0x37F, 0x1FFF), (0x200C, 0x200D),
   (0x203F, 0x2040), (0x2070, 0x218F), (0x2C00, 0x2FEF), (0x3001, 0xD7FF), (0xF900, 0xFDCF),
   (0xFDF0, 0xFFFD), (0x10000, 0xEFFFF)]

/-- A number lies in some ranges if it lies in one of them. -/
theorem inRanges_iff {ranges : List (Nat × Nat)} {n : Nat} :
    inRanges ranges n = true ↔ ∃ r ∈ ranges, r.1 ≤ n ∧ n ≤ r.2 := by
  simp [inRanges]

/-- The letters and marks of names are what the joined ranges have. -/
theorem inRanges_nameRanges {n : Nat} :
    inRanges nameRanges n = true ↔
      inRanges baseRanges n = true ∨ inRanges markRanges n = true := by
  simp only [inRanges_iff, nameRanges, baseRanges, markRanges, List.exists_mem_cons_iff,
    List.not_mem_nil, false_and, exists_false, or_false]
  omega

/-- Every range of letters and numbers is one of strays or within one of names. -/
theorem alphanumericRanges_covered :
    ∀ r ∈ Text.alphanumericRanges,
      r ∈ strayRanges ∨ ∃ b ∈ nameRanges, b.1 ≤ r.1 ∧ r.2 ≤ b.2 := by
  decide +kernel

/-- Letters and marks are not strays. -/
theorem strayRanges_apart {n : Nat} (h : inRanges nameRanges n = true) :
    inRanges strayRanges n = false := by
  rw [← Bool.not_eq_true]
  simp only [inRanges_iff, nameRanges, strayRanges, List.exists_mem_cons_iff,
    List.not_mem_nil, false_and, exists_false, or_false] at h ⊢
  omega

/-- Letters are not marks. -/
theorem markRanges_apart {n : Nat} (h : inRanges baseRanges n = true) :
    inRanges markRanges n = false := by
  rw [← Bool.not_eq_true]
  simp only [inRanges_iff, baseRanges, markRanges, List.exists_mem_cons_iff,
    List.not_mem_nil, false_and, exists_false, or_false] at h ⊢
  omega

/-- The tables of marks and strays start behind ASCII. -/
theorem isMark_of_ascii {c : Char} (h : c.toNat < 0x80) : isMark c = false ∧ isStray c = false := by
  constructor <;>
  · rw [← Bool.not_eq_true]
    simp only [isMark, isStray, inRanges_iff, markRanges, strayRanges, List.exists_mem_cons_iff,
      List.not_mem_nil, false_and, exists_false, or_false]
    omega

/-- The digits here are those of ASCII. -/
theorem ascii_of_isDigit {c : Char} (h : c.isDigit = true) : c.toNat < 0x80 := by
  simp only [Char.isDigit, Bool.and_eq_true, decide_eq_true_eq, UInt32.le_iff_toNat_le] at h
  have hnine : '9'.val.toNat = 57 := rfl
  have hval : c.toNat = c.val.toNat := rfl
  omega

section

variable {c : Char} (hascii : ¬ c.toNat < 0x80)
include hascii

/-- Behind ASCII only letters can come first. -/
theorem isFirstChar_iff : isFirstChar c = true ↔ inRanges baseRanges c.toNat = true := by
  have hdigit : c.isDigit = false := by
    rw [← Bool.not_eq_true]
    exact fun h => hascii (ascii_of_isDigit h)
  have hline : (c == '_') = false := by
    rw [beq_eq_false_iff_ne]
    rintro rfl
    exact hascii (by decide)
  simp [isFirstChar, isBaseChar, hascii, hdigit, hline]

/-- The characters of names are those in the ranges of names. -/
theorem isNameChar_iff : isNameChar c = true ↔ inRanges nameRanges c.toNat = true := by
  have hhyphen : (c == '-') = false := by
    rw [beq_eq_false_iff_ne]
    rintro rfl
    exact hascii (by decide)
  rw [inRanges_nameRanges, isNameChar, hhyphen, Bool.or_false, Bool.or_eq_true,
    isFirstChar_iff hascii, isMark]

end

/-- A character that can come first is no mark. -/
theorem isMark_of_isFirstChar {c : Char} (h : isFirstChar c = true) : isMark c = false := by
  by_cases hascii : c.toNat < 0x80
  · exact (isMark_of_ascii hascii).1
  · exact markRanges_apart ((isFirstChar_iff hascii).mp h)

/-- A letter or number is a character of names unless it is a stray. -/
theorem isNameChar_of_isAlphanumeric {c : Char} (h : Text.isAlphanumeric c = true) :
    isNameChar c = true ↔ isStray c = false := by
  by_cases hascii : c.toNat < 0x80
  · rw [Text.isAlphanumeric, if_pos hascii, Char.isAlphanum, Bool.or_eq_true] at h
    have hname : isNameChar c = true := by
      rcases h with halpha | hdigit
      · simp [isNameChar, isFirstChar, isBaseChar, hascii, halpha]
      · simp [isNameChar, isFirstChar, hdigit]
    simp [hname, (isMark_of_ascii hascii).2]
  · rw [isNameChar_iff hascii]
    constructor
    · exact strayRanges_apart
    · intro hstray
      rw [Text.isAlphanumeric, if_neg hascii, inRanges_iff] at h
      obtain ⟨r, hr, hlow, hhigh⟩ := h
      rcases alphanumericRanges_covered r hr with hr | ⟨b, hb, hbelow, habove⟩
      · rw [isStray, inRanges_iff.mpr ⟨r, hr, hlow, hhigh⟩] at hstray
        cases hstray
      · exact inRanges_iff.mpr ⟨b, hb, Nat.le_trans hbelow hlow, Nat.le_trans hhigh habove⟩

/-- A character of a local name can stand in a local part unless it is a stray. -/
theorem isLocalChar_stray {c : Char} (h : isLocalChar c = true) :
    (isNameChar c = true ∨ c = '.') ↔ isStray c = false := by
  simp only [isLocalChar, Bool.or_eq_true, beq_iff_eq] at h
  rcases h with ((halphanumeric | rfl) | rfl) | rfl
  · have hdot : c ≠ '.' := by
      rintro rfl
      exact absurd halphanumeric (by decide)
    simp [hdot, isNameChar_of_isAlphanumeric halphanumeric]
  · decide
  · decide
  · decide

/-- **The test of local names.**  A local name is a local part unless a stray stands in it or
a mark in front. -/
theorem isLocalPart_iff {s : String} (h : isLocalName s = true) :
    isLocalPart s = true ↔
      (∀ c ∈ s.toList, isStray c = false) ∧ ∀ c ∈ s.toList.head?, isMark c = false := by
  have hlocal := isLocalChar_of_mem h
  unfold isLocalName at h
  unfold isLocalPart
  cases hs : s.toList with
  | nil => simp [hs] at h
  | cons c rest =>
      simp only [hs, Bool.and_eq_true, bne_iff_ne] at h
      obtain ⟨⟨⟨-, hhyphen⟩, hdot⟩, hlast⟩ := h
      have hcolon : ∀ d ∈ s.toList, d ≠ ':' := by
        rintro d hd rfl
        exact absurd (hlocal _ hd) (by decide)
      have hrest : ∀ d ∈ rest, (isNameChar d || d == '.' || d == ':') = true ↔
          isStray d = false := by
        intro d hd
        have hmem : d ∈ s.toList := hs ▸ List.mem_cons_of_mem c hd
        simp [← isLocalChar_stray (hlocal d hmem), hcolon d hmem]
      have hfirst : (isFirstChar c || c == ':') = true ↔
          isStray c = false ∧ isMark c = false := by
        have hmem : c ∈ s.toList := hs ▸ List.mem_cons_self
        simp only [← isLocalChar_stray (hlocal c hmem), hcolon c hmem, hdot, isNameChar,
          hhyphen, Bool.or_eq_true, beq_iff_eq, or_false]
        constructor
        · exact fun hc => ⟨.inl hc, isMark_of_isFirstChar hc⟩
        · rintro ⟨hc | hmark, hno⟩
          · exact hc
          · rw [hmark] at hno
            cases hno
      simp only [Bool.and_eq_true, List.all_eq_true, hfirst, bne_iff_ne, hlast, ne_eq,
        not_false_eq_true, and_true, List.forall_mem_cons, List.head?_cons, Option.mem_some]
      constructor
      · rintro ⟨⟨hc, hmark⟩, hall⟩
        exact ⟨⟨hc, fun d hd => (hrest d hd).mp (hall d hd)⟩, by rintro d rfl; exact hmark⟩
      · rintro ⟨⟨hc, hall⟩, hmark⟩
        exact ⟨⟨hc, hmark c rfl⟩, fun d hd => (hrest d hd).mpr (hall d hd)⟩

/-! ## What is written for an IRI -/

/-- Whether an IRI has none of the characters that its form lets through and its token
cannot have: strays and a leading mark in a local name, and between angle brackets what
cannot stand there. -/
def IriStyle.isWritable (style : IriStyle) (i : String) : Bool :=
  match style.compactForm? i with
  | some (_, rest) => rest.toList.all (!isStray ·) && rest.toList.head?.all (!isMark ·)
  | none => i.toList.all isIriChar

/-- A compact form is that of a prefix of the map. -/
theorem IriStyle.compactForm?_spec {style : IriStyle} {i name rest : String}
    (h : style.compactForm? i = some (name, rest)) :
    ∃ ns, style = .compact ns ∧ isLocalName rest = true ∧
      ∃ stem, ns.get? name = some stem ∧ stem ++ rest = i := by
  cases style with
  | full => cases h
  | compact ns =>
      obtain ⟨hsplit, hlocal⟩ := Option.filter_eq_some_iff.mp h
      obtain ⟨stem, hstem, happend, -⟩ := Namespaces.split?_spec hsplit
      exact ⟨ns, rfl, hlocal, stem, hstem, happend⟩

/-- An IRI of ASCII characters that can stand between angle brackets is writable in every
style. -/
theorem IriStyle.isWritable_of_ascii (style : IriStyle) {i : String}
    (h : ∀ c ∈ i.toList, isIriChar c = true ∧ c.toNat < 0x80) : style.isWritable i = true := by
  unfold isWritable
  split
  next name rest hform =>
    obtain ⟨-, -, -, stem, -, rfl⟩ := compactForm?_spec hform
    have hascii : ∀ c ∈ rest.toList, isMark c = false ∧ isStray c = false := fun c hc =>
      isMark_of_ascii (h c (by simp [hc])).2
    have hall : ∀ c ∈ rest.toList, isStray c = false := fun c hc => (hascii c hc).2
    have hfirst : ∀ c ∈ rest.toList.head?, isMark c = false := fun c hc =>
      (hascii c (List.mem_of_mem_head? hc)).1
    simpa [Option.all_eq_true] using ⟨hall, hfirst⟩
  next => exact List.all_eq_true.mpr fun c hc => (h c hc).1

/-- **What is written for an IRI is a token that denotes it exactly if the IRI is writable.** -/
theorem Token.iriToken_iff {ns : Namespaces} {style : IriStyle}
    (hnames : ∀ e ∈ ns.entries, isPrefixName e.1 = true)
    (hstyle : style = .full ∨ style = .compact ns) (i : String) :
    IriToken ns (Token.text style (.iri i)).toList i ↔ style.isWritable i = true := by
  unfold IriStyle.isWritable
  cases hform : style.compactForm? i with
  | none =>
      have htext : (Token.text style (.iri i)).toList = '<' :: i.toList ++ ['>'] := by
        simp [text, hform]
      rw [htext, IriToken.full_iff]
      simp
  | some parts =>
      obtain ⟨name, rest⟩ := parts
      have htext : (Token.text style (.iri i)).toList = name.toList ++ ':' :: rest.toList := by
        simp [text, hform]
      obtain ⟨_, rfl, hlocal, stem, hstem, happend⟩ := IriStyle.compactForm?_spec hform
      obtain rfl := IriStyle.compact.inj (hstyle.resolve_left (by simp))
      have hname := hnames _ (Namespaces.get?_eq_some.mp hstem)
      have hpart : isLocalPart rest = true ↔
          (rest.toList.all (!isStray ·) && rest.toList.head?.all (!isMark ·)) = true := by
        simp [isLocalPart_iff hlocal, Option.all_eq_true]
      rw [htext, IriToken.prefixed_iff hname, hpart]
      exact and_iff_left ⟨stem, hstem, happend⟩

end ObjectGraph.Sparql
