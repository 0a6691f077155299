import Mathlib.Algebra.Group.Nat.Defs
import ObjectGraph.Proofs.Decode.Ordering
import ObjectGraph.Proofs.Decode.Nesting

/-!
# The numbers of decoded objects

A number among the values of a decoded object was read from a lexical form: it is a double,
or an integer of 64 bits, which has a double next to it (`ofInt?_isSome`).  Linking moves
objects and references and makes no numbers.  So all numbers under the keys of the root's
objects can be compared by value (`Reading.sized_roots`).
-/

namespace ObjectGraph

/-! ## Integers as doubles -/

namespace Binary64

/-- A number that is scaled by no more than its leading bit stays below 54 bits. -/
theorem scale_lt {num : Nat} {e : Int} (he : (num.log2 : Int) - 53 ≤ e) :
    (scale num 1 e).1 < (scale num 1 e).2 * 2 ^ 54 := by
  have hnum : num < 2 ^ (num.log2 + 1) := Nat.lt_log2_self
  unfold scale twoTo
  split
  next hpositive =>
    calc num < 2 ^ (num.log2 + 1) := hnum
      _ ≤ 2 ^ (e.toNat + 54) := Nat.pow_le_pow_right (by decide) (by omega)
      _ = 1 * 2 ^ e.toNat * 2 ^ 54 := by rw [Nat.pow_add, Nat.one_mul]
  next hnegative =>
    calc num * 2 ^ (-e).toNat < 2 ^ (num.log2 + 1) * 2 ^ (-e).toNat :=
          Nat.mul_lt_mul_of_pos_right hnum (Nat.pow_pos (by decide))
      _ = 2 ^ (num.log2 + 1 + (-e).toNat) := (Nat.pow_add ..).symm
      _ ≤ 2 ^ 54 := Nat.pow_le_pow_right (by decide) (by omega)
      _ = 1 * 2 ^ 54 := (Nat.one_mul _).symm

/-- Rounding adds one at most. -/
theorem roundHalfEven_le (num den : Nat) : roundHalfEven num den ≤ num / den + 1 := by
  unfold roundHalfEven
  dsimp only
  split
  · exact Nat.le_refl _
  · split
    · have hparity : num / den % 2 < 2 := Nat.mod_lt _ (by decide)
      omega
    · exact Nat.le_succ _

/-- The last place of a double is that of its highest bits, within the limits of the format. -/
theorem lastPlace_bounds (num : Nat) :
    (num.log2 : Int) - 53 ≤ lastPlace num 1 ∧
      lastPlace num 1 ≤ max (-1074) ((num.log2 : Int) - 52) := by
  have hone : Nat.log2 1 = 0 := by decide
  unfold lastPlace
  rw [hone]
  dsimp only
  split <;> omega

/-- **An integer of 64 bits** has a double next to it. -/
theorem ofInt?_isSome {i : Int} (h : i.natAbs < 2 ^ 64) : (ofInt? i).isSome := by
  obtain ⟨hlow, hhigh⟩ := lastPlace_bounds i.natAbs
  have hscaled := scale_lt hlow
  unfold ofInt? ofRatio?
  generalize lastPlace i.natAbs 1 = e at hlow hhigh hscaled ⊢
  dsimp only
  generalize scale i.natAbs 1 e = scaled at hscaled ⊢
  have hround : roundHalfEven scaled.1 scaled.2 ≤ 2 ^ 54 := by
    have hdiv : scaled.1 / scaled.2 < 2 ^ 54 := Nat.div_lt_of_lt_mul hscaled
    have hle := roundHalfEven_le scaled.1 scaled.2
    omega
  have hbound : (if i.natAbs = 0 then 0 else
      (e + 1074).toNat * leadingBit + roundHalfEven scaled.1 scaled.2) < 0x7FF0000000000000 := by
    by_cases hzero : i.natAbs = 0
    · rw [if_pos hzero]
      decide
    · have hlog : i.natAbs.log2 < 64 := (Nat.log2_lt hzero).mpr h
      have hplace : (e + 1074).toNat ≤ 1085 := by omega
      rw [if_neg hzero]
      unfold leadingBit
      omega
  rw [dif_pos hbound]
  rfl

end Binary64

/-! ## Values that are read -/

namespace Json.Value

mutual

/-- Whether no number is in a value. -/
def isNumberless : Value → Bool
  | .num _ => false
  | .arr items => areNumberless items
  | .obj members => haveNumberless members
  | .null | .bool _ | .str _ => true

def areNumberless : List Value → Bool
  | [] => true
  | v :: rest => v.isNumberless && areNumberless rest

def haveNumberless : List (String × Value) → Bool
  | [] => true
  | (_, v) :: rest => v.isNumberless && haveNumberless rest

end

/-- No number is in a list if none is in its items. -/
theorem areNumberless_iff {items : List Value} :
    areNumberless items = true ↔ ∀ v ∈ items, v.isNumberless = true := by
  induction items with
  | nil => simp [areNumberless]
  | cons v rest ih => simp [areNumberless, ih]

/-- One item is as free of numbers as a list of them. -/
theorem isNumberless_ofItems {items : List Value} (h : ∀ v ∈ items, v.isNumberless = true) :
    (ofItems items).isNumberless = true := by
  unfold ofItems
  split
  · exact h _ List.mem_cons_self
  · exact areNumberless_iff.mpr h

end Json.Value

namespace Decode

open Json (Value Number Object)

/-- A value without a number needs no double. -/
theorem sized_of_numberless {v : Value} (h : v.isNumberless = true) : Sized v := by
  cases v with
  | num n => cases h
  | null | bool | str | arr | obj => trivial

/-- Wrapping a value in an array leaves its number out of the comparison. -/
theorem sized_nest {v : Value} (h : Sized v) (kind : Kind) : Sized (kind.nest v) := by
  cases kind with
  | array items => trivial
  | iri | dateTime | integer | number | boolean | string | object => exact h

/-- An integer that is read has 64 bits. -/
theorem sized_integer (s : String) : Sized (Lexical.integer s) := by
  unfold Lexical.integer
  split
  next i hi =>
    have hrange : isSigned64 i = true := by
      unfold readInteger? at hi
      dsimp only at hi
      split at hi
      · cases hi
      · split at hi
        next hrange => exact Option.some.inj hi ▸ hrange
        next => cases hi
    simp only [isSigned64, Bool.and_eq_true, decide_eq_true_eq] at hrange
    exact Binary64.ofInt?_isSome (by omega)
  next => trivial

/-- The number that a text is read as has a double. -/
theorem sized_textOfKind (s : String) (kind : Kind) : Sized (textOfKind s kind) := by
  cases kind with
  | integer => exact sized_integer s
  | number =>
      rw [textOfKind, Lexical.number]
      split
      · exact rfl
      · trivial
  | boolean =>
      rw [textOfKind, Lexical.boolean]
      split
      · trivial
      · split <;> trivial
  | array | iri | dateTime | string | object => trivial

mutual

/-- What is brought to a kind has no numbers but those that are read. -/
theorem sized_coerce : (v : Value) → (kind : Kind) → v.isNumberless = true →
    Sized (coerce v kind)
  | .arr items, .array kind, _ => by
      rw [coerce]
      trivial
  | .arr items, .iri, h | .arr items, .dateTime, h | .arr items, .integer, h
  | .arr items, .number, h | .arr items, .boolean, h | .arr items, .string, h
  | .arr items, .object, h => by
      rw [coerce]
      · exact sized_coerceFirst items _ h
      · simp
  | .obj members, kind, h => by
      have hself : Sized (kind.nest (.obj members)) := sized_nest (sized_of_numberless h) kind
      rw [coerce]
      split
      · exact hself
      · split
        next v hv => exact sized_nest (sized_coerceWrapped members kind.element h v hv) kind
        next => exact hself
  | .str s, kind, _ => by
      rw [coerce]
      exact sized_nest (sized_textOfKind s kind.element) kind
  | .null, kind, h | .bool _, kind, h => by
      rw [coerce]
      · exact sized_nest (sized_of_numberless h) kind
      all_goals simp
  | .num n, kind, h => by cases h

theorem sized_coerceFirst : (items : List Value) → (kind : Kind) →
    Value.areNumberless items = true → Sized (coerceFirst items kind)
  | [], _, _ => trivial
  | v :: rest, kind, h => by
      rw [coerceFirst]
      simp only [Value.areNumberless, Bool.and_eq_true] at h
      exact sized_coerce v kind h.1

theorem sized_coerceWrapped : (members : List (String × Value)) → (kind : Kind) →
    Value.haveNumberless members = true → ∀ v, coerceWrapped members kind = some v → Sized v
  | [], _, _, v, hv => by
      rw [coerceWrapped] at hv
      cases hv
  | (key, w) :: rest, kind, h, v, hv => by
      simp only [Value.haveNumberless, Bool.and_eq_true] at h
      rw [coerceWrapped] at hv
      split at hv
      · exact Option.some.inj hv ▸ sized_coerce w kind h.1
      · exact sized_coerceWrapped rest kind h.2 v hv

end

/-! ## Objects that are read -/

/-- The values of a node are written without numbers. -/
theorem numberless_compactValue (ctx : Context) (coercion : Option Coercion) (v : NodeValue) :
    (Node.compactValue ctx coercion v).isNumberless = true := by
  have href : ∀ id, (Node.compactRef ctx coercion id).isNumberless = true := by
    intro id
    unfold Node.compactRef
    split <;> rfl
  cases v with
  | iri id => exact href id
  | blank id => exact href id
  | literal text datatype language =>
      rw [Node.compactValue]
      unfold Node.compactLiteral
      split
      · rfl
      · dsimp only
        split <;> rfl

/-- The values of a property are written without numbers. -/
theorem numberless_compactProperty (ctx : Context) (predicate : String) (vs : List NodeValue) :
    (Node.compactProperty ctx predicate vs).2.isNumberless = true := by
  have hall : ∀ coercion, ∀ v ∈ vs.map (Node.compactValue ctx coercion),
      v.isNumberless = true := by
    intro coercion
    exact List.forall_mem_map.mpr fun v _ => numberless_compactValue ctx coercion v
  unfold Node.compactProperty
  split
  · dsimp only
    split
    · exact Value.areNumberless_iff.mpr (hall _)
    · exact Value.isNumberless_ofItems (hall _)
  · exact Value.isNumberless_ofItems (hall _)

/-- A node is written without numbers. -/
theorem numberless_compact (ctx : Context) (n : Node) :
    ∀ e ∈ n.compact ctx, e.2.isNumberless = true := by
  unfold Node.compact
  dsimp only
  refine List.foldlRecOn (motive := fun object : Object => ∀ e ∈ object, e.2.isNumberless = true)
    _ _ ?_ ?_
  · intro e he
    rcases List.mem_cons.mp he with rfl | he
    · rfl
    · split at he
      · cases he
      · obtain rfl := List.mem_singleton.mp he
        exact Value.isNumberless_ofItems (List.forall_mem_map.mpr fun _ _ => rfl)
  · intro object hobject p _ e he
    rcases Assoc.mem_insert he with he | rfl
    · exact hobject e he
    · exact numberless_compactProperty ctx p.1 p.2

/-- What an object holds of a node has no numbers. -/
theorem numberless_selectedValue {ns : Namespaces} {nodes : NodeMap} {s : Scoped} {n : Node}
    {key : String} {v : Value}
    (h : selectedValue? ns nodes s n (n.compact s.context) key = some v) :
    v.isNumberless = true := by
  have hown : ∀ w, (n.compact s.context).get? key = some w → w.isNumberless = true :=
    fun w hw => numberless_compact s.context n _ (Assoc.mem_of_get? hw)
  unfold selectedValue? at h
  split at h
  · split at h
    · unfold referrers? at h
      split at h
      · cases h
      · obtain rfl := Option.some.inj h
        exact Value.isNumberless_ofItems (List.forall_mem_map.mpr fun _ _ => rfl)
    · exact hown v h
  · exact hown v h

/-- Entering what was written without numbers. -/
theorem sized_enterValue {object : Object} {key : String} {kind : Kind} {value : Option Value}
    (hobject : ∀ e ∈ object, Sized e.2) (hvalue : ∀ v, value = some v → v.isNumberless = true) :
    ∀ e ∈ enterValue object key kind value, Sized e.2 := by
  cases value with
  | none => exact hobject
  | some v =>
      intro e he
      rcases Assoc.mem_insert he with he | rfl
      · exact hobject e he
      · exact sized_coerce v kind (hvalue v rfl)

/-- The numbers of a selected view are those that are read. -/
theorem sized_shape (ns : Namespaces) (nodes : NodeMap) (s : Scoped) (n : Node) :
    ∀ e ∈ shape ns nodes s n, Sized e.2 := by
  have hwritten : ∀ key v, (n.compact s.context).get? key = some v → v.isNumberless = true :=
    fun key v hv => numberless_compact s.context n _ (Assoc.mem_of_get? hv)
  have hmember : ∀ key, ∀ e ∈ (((n.compact s.context).get? key).map fun v => (key, v)).toList,
      Sized e.2 := by
    intro key e he
    obtain ⟨v, hv, rfl⟩ := Option.map_eq_some_iff.mp (Option.mem_toList.mp he)
    exact sized_of_numberless (hwritten key v hv)
  unfold shape
  dsimp only
  refine List.foldlRecOn (motive := fun object : Object => ∀ e ∈ object, Sized e.2) _ _ ?_
    fun object hobject key _ => sized_enterValue hobject (hwritten key)
  refine List.foldlRecOn (motive := fun object : Object => ∀ e ∈ object, Sized e.2) _ _ ?_
    fun object hobject key _ => sized_enterValue hobject fun v hv => numberless_selectedValue hv
  intro e he
  rcases List.mem_append.mp he with he | he
  · exact hmember "@id" e he
  · split at he
    · exact hmember "@type" e he
    · cases he

/-- Nesting brings no numbers. -/
theorem Nested.get?_num {ns : Namespaces} {s : Scoped} {later : List (Scoped × List Decoded)}
    {d : Decoded} {key : String} {n : Number} (h : Nested ns s later d key (.num n)) :
    d.object.get? key = some (.num n) := by
  cases h with
  | own hv hw =>
      cases hw with
      | one h =>
          cases h with
          | kept => exact hv
  | gathered hterm hv =>
      obtain ⟨q, children, -, -, heq⟩ := hv
      cases heq

/-- **The numbers of decoded objects** are compared by value. -/
theorem Reading.sized_roots {ns : Namespaces} {config : Config} {parts : List Part}
    {quads : List Quad} (r : Reading ns config parts quads) (key : String) :
    ∀ v ∈ valuesAt key (roots r.final), Sized v := by
  intro v hv
  obtain ⟨object, hobject, hget⟩ := List.mem_filterMap.mp hv
  unfold roots at hobject
  rw [List.head?_eq_getElem?] at hobject
  cases hown : r.own[0]? with
  | none =>
      rw [Reading.getElem?_final_of_none hown] at hobject
      cases hobject
  | some e =>
      obtain ⟨s, ds⟩ := e
      rw [Reading.getElem?_final hown] at hobject
      obtain ⟨final, hfinal, rfl⟩ := List.mem_map.mp hobject
      obtain ⟨d, hd, rfl⟩ := List.mem_map.mp hfinal
      have hnested := (assembles_linkLater ns s _ d).members key v hget
      cases v with
      | num n =>
          have hshape := hnested.get?_num
          rw [Reading.object_of_own hown hd] at hshape
          exact sized_shape ns r.nodes s d.node _ (Assoc.mem_of_get? hshape)
      | null | bool | str | arr | obj => trivial

end Decode

end ObjectGraph
