import ObjectGraph.Decode.Coerce

/-!
# The form of a kind

What is brought to a kind has the form of the kind (`isForm_coerce`): arrays within arrays as
deep as the kind has them, and in the innermost places values that are no arrays, carry no
value in turn and are no texts that the kind reads.  The values that have the form are those
that stay as they are (`coerce_eq_self_iff`), so nothing changes when values are brought to
their kind again.
-/

namespace ObjectGraph

open Json (Value)

/-- Whether a value is an array. -/
def Json.Value.isArray : Value → Bool
  | .arr _ => true
  | _ => false

namespace Kind

/-- A value in the form of a kind. -/
def IsForm : Kind → Value → Prop
  | .array items, .arr vs => ∀ v ∈ vs, items.IsForm v
  | .array _, _ => False
  | _, .arr _ => False
  | _, .obj members => Assoc.contains members "@language" = true ∨
      Assoc.contains members "@value" = false
  | kind, .str s => Decode.textOfKind s kind = .str s
  | _, _ => True

/-- The element of a kind is no array. -/
theorem isArray_element (kind : Kind) : kind.element.isArray = false := by
  induction kind with
  | array items ih => exact ih
  | iri | dateTime | integer | number | boolean | string | object => rfl

/-- A kind that is no array is its own element. -/
theorem element_eq_self {kind : Kind} (h : kind.isArray = false) : kind.element = kind := by
  cases kind with
  | array items => cases h
  | iri | dateTime | integer | number | boolean | string | object => rfl

/-- A value of a kind that is no array is not wrapped. -/
theorem nest_eq_self {kind : Kind} (h : kind.isArray = false) (v : Value) : kind.nest v = v := by
  cases kind with
  | array items => cases h
  | iri | dateTime | integer | number | boolean | string | object => rfl

/-- An array has the form of no kind but an array, and nothing else has the form of one. -/
theorem IsForm.isArray_eq {kind : Kind} {v : Value} (h : kind.IsForm v) :
    v.isArray = kind.isArray := by
  cases kind <;> cases v <;> first | rfl | exact h.elim

/-- Within as many arrays as the kind has, what has the form of its innermost items has the
form of the kind. -/
theorem isForm_nest {kind : Kind} {v : Value} (h : kind.element.IsForm v) :
    kind.IsForm (kind.nest v) := by
  induction kind with
  | array items ih =>
      intro w hw
      rw [List.mem_singleton.mp hw]
      exact ih h
  | iri | dateTime | integer | number | boolean | string | object => exact h

/-- Null, truth values and numbers are in the form of every kind but an array. -/
theorem isForm_constant {kind : Kind} (h : kind.isArray = false) :
    kind.IsForm .null ∧ (∀ b, kind.IsForm (.bool b)) ∧ ∀ n, kind.IsForm (.num n) := by
  cases kind with
  | array items => cases h
  | iri | dateTime | integer | number | boolean | string | object =>
      exact ⟨trivial, fun _ => trivial, fun _ => trivial⟩

/-- A text is in the form of a kind that reads it as itself. -/
theorem isForm_str_iff {kind : Kind} (h : kind.isArray = false) {s : String} :
    kind.IsForm (.str s) ↔ Decode.textOfKind s kind = .str s := by
  cases kind with
  | array items => cases h
  | iri | dateTime | integer | number | boolean | string | object => exact Iff.rfl

/-- An object is in the form of a kind, other than an array, unless it wraps a value. -/
theorem isForm_obj_iff {kind : Kind} (h : kind.isArray = false) {members : Json.Object} :
    kind.IsForm (.obj members) ↔
      Assoc.contains members "@language" = true ∨ Assoc.contains members "@value" = false := by
  cases kind with
  | array items => cases h
  | iri | dateTime | integer | number | boolean | string | object => exact Iff.rfl

end Kind

namespace Decode

/-- A text that a kind does not read is kept. -/
theorem textOfKind_cases (s : String) (kind : Kind) :
    textOfKind s kind = .str s ∨ (∃ b, textOfKind s kind = .bool b) ∨
      ∃ n, textOfKind s kind = .num n := by
  cases kind with
  | integer =>
      simp only [textOfKind, Lexical.integer]
      split
      next i _ => exact .inr (.inr ⟨_, rfl⟩)
      next => exact .inl rfl
  | number =>
      simp only [textOfKind, Lexical.number]
      split
      next x _ => exact .inr (.inr ⟨_, rfl⟩)
      next => exact .inl rfl
  | boolean =>
      simp only [textOfKind, Lexical.boolean]
      split
      next => exact .inr (.inl ⟨true, rfl⟩)
      next =>
        split
        next => exact .inr (.inl ⟨false, rfl⟩)
        next => exact .inl rfl
  | iri | dateTime | string | object | array => exact .inl rfl

/-- What a text is read as has the form of its kind. -/
theorem isForm_textOfKind (s : String) {kind : Kind} (h : kind.isArray = false) :
    kind.IsForm (textOfKind s kind) := by
  rcases textOfKind_cases s kind with hread | ⟨b, hread⟩ | ⟨n, hread⟩
  · exact hread.symm ▸ (Kind.isForm_str_iff h).mpr hread
  · exact hread.symm ▸ (Kind.isForm_constant h).2.1 b
  · exact hread.symm ▸ (Kind.isForm_constant h).2.2 n

/-- A wrapped value is what stands under `@value`, brought to the kind. -/
theorem coerceWrapped_eq (members : List (String × Value)) (kind : Kind) :
    coerceWrapped members kind = (Assoc.get? members "@value").map (coerce · kind) := by
  induction members with
  | nil => rw [coerceWrapped]; rfl
  | cons member rest ih =>
      obtain ⟨k, v⟩ := member
      by_cases h : k = "@value" <;> simp [coerceWrapped, Assoc.get?, h, ih]

mutual

/-- **What is brought to a kind** has its form. -/
theorem isForm_coerce : (v : Value) → (kind : Kind) → kind.IsForm (coerce v kind)
  | .arr vs, kind => by
      cases hkind : kind.isArray with
      | true =>
          obtain ⟨items, rfl⟩ : ∃ items, kind = .array items := by
            cases kind <;> first | exact ⟨_, rfl⟩ | cases hkind
          rw [coerce]
          exact isForm_coerceItems vs items
      | false =>
          rw [coerce]
          · exact isForm_coerceFirst vs kind hkind
          · rintro items rfl
            cases hkind
  | .obj members, kind => by
      have helement := kind.isArray_element
      rw [coerce]
      split
      next hlanguage =>
        exact Kind.isForm_nest ((Kind.isForm_obj_iff helement).mpr (.inl hlanguage))
      next =>
        split
        next v hv => exact Kind.isForm_nest (isForm_coerceWrapped members kind.element v hv)
        next hnone =>
          refine Kind.isForm_nest ((Kind.isForm_obj_iff helement).mpr (.inr ?_))
          rw [coerceWrapped_eq, Option.map_eq_none_iff] at hnone
          simp [Assoc.contains, hnone]
  | .str s, kind => by
      rw [coerce]
      exact Kind.isForm_nest (isForm_textOfKind s kind.isArray_element)
  | .null, kind => by
      rw [coerce]
      · exact Kind.isForm_nest (Kind.isForm_constant kind.isArray_element).1
      all_goals simp
  | .bool b, kind => by
      rw [coerce]
      · exact Kind.isForm_nest ((Kind.isForm_constant kind.isArray_element).2.1 b)
      all_goals simp
  | .num n, kind => by
      rw [coerce]
      · exact Kind.isForm_nest ((Kind.isForm_constant kind.isArray_element).2.2 n)
      all_goals simp

/-- All items are brought to the form of the kind. -/
theorem isForm_coerceItems : (vs : List Value) → (kind : Kind) →
    ∀ v ∈ coerceItems vs kind, kind.IsForm v
  | [], _, v, h => by
      rw [coerceItems] at h
      cases h
  | v :: rest, kind, w, h => by
      rw [coerceItems] at h
      rcases List.mem_cons.mp h with rfl | h
      · exact isForm_coerce v kind
      · exact isForm_coerceItems rest kind w h

theorem isForm_coerceFirst : (vs : List Value) → (kind : Kind) → kind.isArray = false →
    kind.IsForm (coerceFirst vs kind)
  | [], _, h => by
      rw [coerceFirst]
      exact (Kind.isForm_constant h).1
  | v :: _, kind, _ => by
      rw [coerceFirst]
      exact isForm_coerce v kind

theorem isForm_coerceWrapped : (members : List (String × Value)) → (kind : Kind) →
    ∀ v, coerceWrapped members kind = some v → kind.IsForm v
  | [], _, v, h => by
      rw [coerceWrapped] at h
      cases h
  | (k, w) :: rest, kind, v, h => by
      rw [coerceWrapped] at h
      split at h
      · exact Option.some.inj h ▸ isForm_coerce w kind
      · exact isForm_coerceWrapped rest kind v h

end

/-- Items are brought to the kind one by one. -/
theorem coerceItems_eq (vs : List Value) (kind : Kind) :
    coerceItems vs kind = vs.map (coerce · kind) := by
  induction vs with
  | nil => rw [coerceItems]; rfl
  | cons v rest ih => rw [coerceItems, ih, List.map_cons]

/-- What is in the form of a kind that is no array stays as it is. -/
theorem coerce_scalar {kind : Kind} (h : kind.isArray = false) {v : Value} (hv : kind.IsForm v) :
    coerce v kind = v := by
  have helement := Kind.element_eq_self h
  have hnest := Kind.nest_eq_self h
  cases v with
  | arr vs => cases hv.isArray_eq.trans h
  | str s => rw [coerce, hnest, helement, (Kind.isForm_str_iff h).mp hv]
  | obj members =>
      rw [coerce, hnest]
      rcases (Kind.isForm_obj_iff h).mp hv with hlanguage | hvalue
      · rw [if_pos hlanguage]
      · have hnone : Assoc.get? members "@value" = none := by simpa [Assoc.contains] using hvalue
        simp [coerceWrapped_eq, hnone]
  | null | bool | num =>
      rw [coerce]
      · exact hnest _
      all_goals simp

/-- What has the form of a kind stays as it is. -/
theorem coerce_of_isForm {kind : Kind} {v : Value} (h : kind.IsForm v) : coerce v kind = v := by
  induction kind generalizing v with
  | array items ih =>
      cases v with
      | arr vs =>
          have hsame : vs.map (coerce · items) = vs :=
            (List.map_congr_left fun w hw => ih (h w hw)).trans (List.map_id' vs)
          rw [coerce, coerceItems_eq, hsame]
      | null | bool | num | str | obj => exact h.elim
  | iri | dateTime | integer | number | boolean | string | object => exact coerce_scalar rfl h

/-- Only what is in the form of its kind stays as it is. -/
theorem coerce_eq_self_iff {kind : Kind} {v : Value} : coerce v kind = v ↔ kind.IsForm v :=
  ⟨fun h => h ▸ isForm_coerce v kind, coerce_of_isForm⟩

/-- **Values are brought to their kind once.**  Whatever a value is, what is made of it has the
form of the kind: it is an array exactly if the kind is one, and so are its items, and it stays
as it is when it is brought to the kind again. -/
theorem coerce_settles (v : Value) (kind : Kind) :
    kind.IsForm (coerce v kind) ∧
      ((coerce v kind).isArray = true ↔ kind.isArray = true) ∧
      coerce (coerce v kind) kind = coerce v kind := by
  have hform := isForm_coerce v kind
  refine ⟨hform, ?_, coerce_of_isForm hform⟩
  rw [hform.isArray_eq]

end Decode

end ObjectGraph
