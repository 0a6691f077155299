import Mathlib.Data.List.TakeWhile
import ObjectGraph.Literal
import ObjectGraph.Proofs.Number.Point

/-!
# Numerals

The lexical forms of integers and decimals, and which of the literals that are
written for numbers have them (`Encode.numeral_iff`).  An integer has the form of
either datatype.  The text of a double always has a point or an exponent, so it is no
integer, and it is a decimal as long as it has no exponent: for zero, and from
`10 ^ (-5)` up to below `10 ^ 16`.
-/

namespace ObjectGraph

open Json (Value Number)
open Sparql (Literal)

/-! ## Lexical forms -/

/-- The lexical form of an integer: an optional sign and digits. -/
def isIntegerForm (cs : List Char) : Bool :=
  let ds := (readSign cs).2
  !ds.isEmpty && ds.all Char.isDigit

/-- The lexical form of a decimal: an optional sign and digits, among them at most one
point. -/
def isDecimalForm (cs : List Char) : Bool :=
  let body := (readSign cs).2
  let whole := body.takeWhile Char.isDigit
  match body.dropWhile Char.isDigit with
  | [] => !whole.isEmpty
  | c :: fraction =>
    c == '.' && fraction.all Char.isDigit && !(whole.isEmpty && fraction.isEmpty)

/-- Whether a literal is a numeral: an integer or a decimal with a lexical form of its
datatype. -/
def Sparql.Literal.isNumeral : Sparql.Literal → Bool
  | .typed text datatype =>
    if datatype = Vocabulary.xsdInteger then isIntegerForm text.toList
    else datatype == Vocabulary.xsdDecimal && isDecimalForm text.toList
  | _ => false

section Forms

variable {cs whole fraction : List Char} {c : Char} {negative : Bool}

/-- Besides a sign all characters are behind it. -/
theorem mem_readSign (h : c ∈ cs) : c = '-' ∨ c = '+' ∨ c ∈ (readSign cs).2 := by
  unfold readSign
  split
  · exact (List.mem_cons.1 h).imp_right .inr
  · exact .inr (List.mem_cons.1 h)
  · exact .inr (.inr h)

/-- Besides its sign an integer has digits only. -/
theorem isIntegerForm_of_mem (hc : c ∈ cs) (hdigit : c.isDigit = false) (hminus : c ≠ '-')
    (hplus : c ≠ '+') : isIntegerForm cs = false := by
  have hmem : c ∈ (readSign cs).2 := ((mem_readSign hc).resolve_left hminus).resolve_left hplus
  have hall : (readSign cs).2.all Char.isDigit = false :=
    List.all_eq_false.2 ⟨c, hmem, by simp [hdigit]⟩
  simp [isIntegerForm, hall]

/-- Besides its sign and its point a decimal has digits only. -/
theorem isDecimalForm_of_mem (hc : c ∈ cs) (hdigit : c.isDigit = false) (hminus : c ≠ '-')
    (hplus : c ≠ '+') (hpoint : c ≠ '.') : isDecimalForm cs = false := by
  have hmem : c ∈ (readSign cs).2 := ((mem_readSign hc).resolve_left hminus).resolve_left hplus
  rw [← List.takeWhile_append_dropWhile (p := Char.isDigit) (l := (readSign cs).2)] at hmem
  unfold isDecimalForm
  simp only []
  rcases List.mem_append.1 hmem with hwhole | hrest
  · exact absurd (List.mem_takeWhile_imp hwhole) (by simp [hdigit])
  · split
    next hnil => simp [hnil] at hrest
    next first fraction hcons =>
      rw [hcons] at hrest
      rcases List.mem_cons.1 hrest with rfl | hfraction
      · simp [hpoint]
      · have hall : fraction.all Char.isDigit = false :=
          List.all_eq_false.2 ⟨c, hfraction, by simp [hdigit]⟩
        simp [hall]

/-- Digits in front of a point and behind it are a decimal, with or without a sign. -/
theorem isDecimalForm_append (hne : whole ≠ []) (hwhole : whole.all Char.isDigit = true)
    (hfraction : fraction.all Char.isDigit = true) :
    isDecimalForm (signOf negative ++ (whole ++ '.' :: fraction)) = true := by
  have hdigits := List.all_eq_true.1 hwhole
  obtain ⟨first, more, rfl⟩ := List.exists_cons_of_ne_nil hne
  have hbody : (readSign (signOf negative ++ (first :: more ++ '.' :: fraction))).2 =
      first :: more ++ '.' :: fraction := by
    rw [List.cons_append, readSign_append (hdigits first List.mem_cons_self)]
  unfold isDecimalForm
  simp only [hbody]
  rw [List.takeWhile_append_of_pos hdigits, List.dropWhile_append_of_pos hdigits]
  have hpoint : Char.isDigit '.' = false := by decide
  simpa [hpoint] using hfraction

/-- The text of an integer has the form of an integer. -/
theorem isIntegerForm_int (i : Int) : isIntegerForm (toString i).toList = true := by
  rw [toString_int]
  simp [isIntegerForm, readSign_append_toDigits, all_isDigit_toDigits, Nat.toDigits_ne_nil]

/-- The text of an integer has the form of a decimal, too. -/
theorem isDecimalForm_int (i : Int) : isDecimalForm (toString i).toList = true := by
  have hdigits := List.all_eq_true.1 (all_isDigit_toDigits i.natAbs)
  rw [toString_int]
  unfold isDecimalForm
  simp only [readSign_append_toDigits, List.dropWhile_eq_nil_iff.2 hdigits,
    List.takeWhile_eq_self_iff.2 hdigits]
  simp [Nat.toDigits_ne_nil]

end Forms

/-! ## The text of a double -/

namespace Binary64

variable {x : Binary64} {ds : List Char} {point : Int}

/-- In the plain range the point stands among digits. -/
theorem layout_plain (hne : ds ≠ []) (hdigits : ds.all Char.isDigit = true)
    (hplain : -5 < point ∧ point ≤ 16) :
    ∃ whole fraction, layout ds point = whole ++ '.' :: fraction ∧ whole ≠ [] ∧
      whole.all Char.isDigit = true ∧ fraction.all Char.isDigit = true := by
  have hzeros : ∀ n, (List.replicate n '0').all Char.isDigit = true := by
    intro n
    exact List.all_eq_true.2 fun c hc => (List.eq_of_mem_replicate hc) ▸ by decide
  unfold layout
  simp only []
  rw [if_pos hplain]
  split
  next hwhole =>
    refine ⟨ds ++ List.replicate (point - ds.length).toNat '0', ['0'], by simp, by simp [hne], ?_,
      by decide⟩
    rw [List.all_append, hdigits, hzeros]
    rfl
  next hshort =>
    split
    next hpos =>
      refine ⟨ds.take point.toNat, ds.drop point.toNat, rfl, ?_, ?_, ?_⟩
      · simpa [hne] using hpos
      · exact List.all_eq_true.2 fun c hc => List.all_eq_true.1 hdigits c (List.mem_of_mem_take hc)
      · exact List.all_eq_true.2 fun c hc => List.all_eq_true.1 hdigits c (List.mem_of_mem_drop hc)
    next =>
      refine ⟨['0'], List.replicate (-point).toNat '0' ++ ds, rfl, by simp, by decide, ?_⟩
      rw [List.all_append, hdigits, hzeros]
      rfl

/-- Outside of the plain range there is an exponent. -/
theorem mem_layout (hwide : ¬ (-5 < point ∧ point ≤ 16)) : 'e' ∈ layout ds point := by
  unfold layout
  simp only []
  rw [if_neg hwide]
  simp

/-- Zero, and the doubles from `10 ^ (-5)` up to below `10 ^ 16`: those that are written
without an exponent. -/
def IsPlain (x : Binary64) : Prop :=
  x.magnitude = 0 ∨ 1 / 10 ^ 5 ≤ x.abs.toRat ∧ x.abs.toRat < 10 ^ 16

/-- How a double is written: its sign, and `0.0` or the layout of its digits. -/
theorem text_toList (x : Binary64) :
    x.text.toList = signOf x.negative ++
      if x.magnitude = 0 then ['0', '.', '0']
      else layout (Nat.toDigits 10 x.shortest.digits) x.point := by
  unfold text
  by_cases hx : x.magnitude = 0
  · simp only [hx, if_true, String.toList_ofList, signOf]
  · simp only [hx, if_false, String.toList_ofList, signOf, point, digitCount]

/-- A plain double is written with a point among digits. -/
theorem text_plain (h : x.IsPlain) :
    ∃ whole fraction, x.text.toList = signOf x.negative ++ (whole ++ '.' :: fraction) ∧
      whole ≠ [] ∧ whole.all Char.isDigit = true ∧ fraction.all Char.isDigit = true := by
  rw [text_toList]
  split
  next => exact ⟨['0'], ['0'], rfl, by simp, by decide, by decide⟩
  next hx =>
    have hne : Nat.toDigits 10 x.shortest.digits ≠ [] := Nat.toDigits_ne_nil
    obtain ⟨whole, fraction, hlayout, hdigits⟩ :=
      layout_plain hne (all_isDigit_toDigits _) ((point_iff hx).2 (h.resolve_left hx))
    exact ⟨whole, fraction, by rw [hlayout], hdigits⟩

/-- Any other double is written with an exponent. -/
theorem mem_text (h : ¬ x.IsPlain) : 'e' ∈ x.text.toList := by
  obtain ⟨hx, hwide⟩ := not_or.1 h
  rw [text_toList, if_neg hx]
  exact List.mem_append_right _ (mem_layout fun hplain => hwide ((point_iff hx).1 hplain))

/-- A double has the text of a decimal exactly if it is written without an exponent. -/
theorem isDecimalForm_text (x : Binary64) : isDecimalForm x.text.toList = true ↔ x.IsPlain := by
  constructor
  · intro h
    by_contra hwide
    rw [isDecimalForm_of_mem (mem_text hwide) (by decide) (by decide) (by decide) (by decide)] at h
    cases h
  · intro hplain
    obtain ⟨whole, fraction, htext, hne, hwhole, hfraction⟩ := text_plain hplain
    rw [htext]
    exact isDecimalForm_append hne hwhole hfraction

/-- The text of a double is never that of an integer. -/
theorem isIntegerForm_text (x : Binary64) : isIntegerForm x.text.toList = false := by
  by_cases h : x.IsPlain
  · obtain ⟨whole, fraction, htext, -⟩ := text_plain h
    have hpoint : '.' ∈ x.text.toList := by
      simp [htext]
    exact isIntegerForm_of_mem hpoint (by decide) (by decide) (by decide)
  · exact isIntegerForm_of_mem (mem_text h) (by decide) (by decide) (by decide)

end Binary64

/-! ## The literals of numbers -/

namespace Sparql.Literal

/-- A literal of the datatype for integers is a numeral if its text has their form. -/
theorem isNumeral_integer (text : String) :
    (typed text Vocabulary.xsdInteger).isNumeral = isIntegerForm text.toList := by
  simp [isNumeral]

/-- A literal of the datatype for decimals is a numeral if its text has their form. -/
theorem isNumeral_decimal (text : String) :
    (typed text Vocabulary.xsdDecimal).isNumeral = isDecimalForm text.toList := by
  have hne : Vocabulary.xsdDecimal ≠ Vocabulary.xsdInteger := by decide
  simp [isNumeral, hne]

end Sparql.Literal

/-- The numbers that are written without an exponent. -/
def Json.Number.IsPlain : Number → Prop
  | .int _ => True
  | .double x => x.IsPlain

def Json.Number.isInt : Number → Bool
  | .int _ => true
  | .double _ => false

namespace Encode

variable {ns : Namespaces} {kind : Kind} {n : Number} {v : Value}

/-- The datatype of a number: that of the property, and under a text that of its own. -/
def numberDatatype (kind : Kind) (n : Number) : String :=
  if kind = .integer ∨ kind ≠ .number ∧ n.isInt then Vocabulary.xsdInteger
  else Vocabulary.xsdDecimal

/-- The items of an array are written like values of their kind. -/
theorem value_element (kind : Kind) (v : Value) : value ns kind v = value ns kind.element v := by
  induction kind with
  | array items ih => exact ih
  | _ => rfl

/-- A number is written as its text, with the datatype of its kind. -/
theorem value_num (hkind : kind.element = .integer ∨ kind.element = .number ∨
      kind.element = .string) (n : Number) :
    value ns kind (.num n) = .literal (.typed n.text (numberDatatype kind.element n)) := by
  rw [value_element]
  rcases hkind with h | h | h <;> rw [h] <;> cases n <;> rfl

/-- A number is written as a numeral if it is an integer, or if it is not under the
kind of integers and its text has no exponent. -/
theorem numeral_iff (ns : Namespaces) (hkind : kind.element = .integer ∨
      kind.element = .number ∨ kind.element = .string) (n : Number) :
    ∃ l, value ns kind (.num n) = .literal l ∧
      (l.isNumeral = true ↔ n.isInt = true ∨ kind.element ≠ .integer ∧ n.IsPlain) := by
  refine ⟨_, value_num hkind n, ?_⟩
  unfold numberDatatype
  cases n with
  | int i =>
      have hform : ∀ p : Prop, [Decidable p] → (Literal.typed (Number.int i).text
          (if p then Vocabulary.xsdInteger else Vocabulary.xsdDecimal)).isNumeral = true := by
        intro p _
        split
        · rw [Literal.isNumeral_integer]
          exact isIntegerForm_int i
        · rw [Literal.isNumeral_decimal]
          exact isDecimalForm_int i
      simp [hform, Number.isInt]
  | double x =>
      have htext : (Number.double x).text = x.text := rfl
      by_cases hinteger : kind.element = .integer
      · simp [hinteger, Literal.isNumeral_integer, htext, Binary64.isIntegerForm_text, Number.isInt]
      · simp [hinteger, Literal.isNumeral_decimal, htext, Binary64.isDecimalForm_text, Number.isInt,
          Number.IsPlain]

/-- The double 1.5. -/
def oneAndAHalf : Binary64 :=
  ⟨false, 0x3FF8000000000000, by decide⟩

/-- The double `10 ^ 16`. -/
def tenToSixteen : Binary64 :=
  ⟨false, 0x4341C37937E08000, by decide⟩

/-- One and a half is written without an exponent. -/
theorem isPlain_oneAndAHalf : oneAndAHalf.IsPlain := by
  have hvalue : oneAndAHalf.abs.toRat = 3 / 2 := by
    have hsignificand : oneAndAHalf.significand = 0x18000000000000 := by decide
    have hexponent : oneAndAHalf.exponent = 1022 := by decide
    rw [Binary64.abs_toRat, Binary64.ulp_eq_zpow, hsignificand, hexponent]
    norm_num
  right
  rw [hvalue]
  norm_num

/-- A fraction as an item of an array of numbers. -/
theorem numeral_iff_oneAndAHalf :
    (Kind.array .number).element = .number ∧
      ∃ l, value .exampleOrg (.array .number) (.num (.double oneAndAHalf)) = .literal l ∧
        l.isNumeral = true := by
  have hkind : (Kind.array .number).element = .number := rfl
  obtain ⟨l, hvalue, hnumeral⟩ :=
    numeral_iff .exampleOrg (.inr (.inl hkind)) (.double oneAndAHalf)
  exact ⟨hkind, l, hvalue, hnumeral.2 (.inr ⟨by decide, isPlain_oneAndAHalf⟩)⟩

/-- A fraction under the kind of integers, and a large number under that of numbers:
the literals name datatypes that do not have their texts. -/
theorem texts_not_numerals :
    value .exampleOrg .integer (.num (.double oneAndAHalf)) =
        .literal (.typed "1.5" Vocabulary.xsdInteger) ∧
      (Literal.typed "1.5" Vocabulary.xsdInteger).isNumeral = false ∧
      value .exampleOrg .number (.num (.double tenToSixteen)) =
        .literal (.typed "1e+16" Vocabulary.xsdDecimal) ∧
      (Literal.typed "1e+16" Vocabulary.xsdDecimal).isNumeral = false := by
  have hsmall : oneAndAHalf.text = "1.5" := by decide +kernel
  have hlarge : tenToSixteen.text = "1e+16" := by decide +kernel
  refine ⟨?_, by decide, ?_, by decide⟩
  · rw [← hsmall]
    rfl
  · rw [← hlarge]
    rfl

end Encode

end ObjectGraph
