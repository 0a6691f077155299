import Mathlib.Data.List.Basic
import ObjectGraph.Decode.Order

/-!
# When objects have an order

Objects are compared alike from both sides.  Whether the comparison leads from one object
over a second one to a third depends on the values: two numbers are compared by value, and
everything else by text.  The two ways get into each other's way exactly if a text stands
between those of two numbers that have another order by value, as `"5.5"` stands between
`10` and `9`.  Values without such a place are `Coherent`, and the objects are in a total
preorder by a key exactly if their values under it are coherent (`compareKey_preorder_iff`).
By several keys they are in one if this holds for each of them (`compareObjects_preorder`).
-/

namespace ObjectGraph.Decode

open Json (Value Number Object)

/-! ## Preorders on the members of a list -/

/-- A comparison is a total preorder on the members of a list: every two of them are
compared alike from both sides, and the order is transitive. -/
abbrev PreorderOn {α : Type} (cmp : α → α → Ordering) (xs : List α) : Prop :=
  Std.TransCmp fun a b : {x // x ∈ xs} => cmp a.1 b.1

namespace PreorderOn

variable {α : Type} {cmp : α → α → Ordering} {xs : List α} {a b c : α}

/-- Two members are compared alike from both sides. -/
theorem swap (h : PreorderOn cmp xs) (ha : a ∈ xs) (hb : b ∈ xs) :
    cmp a b = (cmp b a).swap :=
  h.eq_swap (a := ⟨a, ha⟩) (b := ⟨b, hb⟩)

/-- The order of members is transitive. -/
theorem trans (h : PreorderOn cmp xs) (ha : a ∈ xs) (hb : b ∈ xs) (hc : c ∈ xs)
    (hab : (cmp a b).isLE) (hbc : (cmp b c).isLE) : (cmp a c).isLE :=
  h.isLE_trans (a := ⟨a, ha⟩) (b := ⟨b, hb⟩) (c := ⟨c, hc⟩) hab hbc

/-- Two that tie with a third one tie with each other. -/
theorem tie (h : PreorderOn cmp xs) (ha : a ∈ xs) (hb : b ∈ xs) (hc : c ∈ xs)
    (hca : cmp c a = .eq) (hcb : cmp c b = .eq) : cmp a b = .eq := by
  have hac : cmp a c = .eq := by
    rw [h.swap ha hc, hca]
    rfl
  exact h.eq_trans (a := ⟨a, ha⟩) (b := ⟨c, hc⟩) (c := ⟨b, hb⟩) hac hcb

end PreorderOn

/-- Where both sides compare alike, being transitive is enough. -/
theorem preorderOn_iff {α : Type} {cmp : α → α → Ordering} {xs : List α}
    (hswap : ∀ a b, cmp a b = (cmp b a).swap) :
    PreorderOn cmp xs ↔ ∀ a ∈ xs, ∀ b ∈ xs, ∀ c ∈ xs,
      (cmp a b).isLE → (cmp b c).isLE → (cmp a c).isLE := by
  constructor
  · intro h a ha b hb c hc
    exact h.trans ha hb hc
  · intro h
    have hsides : Std.OrientedCmp fun a b : {x // x ∈ xs} => cmp a.1 b.1 := ⟨hswap _ _⟩
    exact { hsides with
      isLE_trans := fun {a b c} => h a.1 a.2 b.1 b.2 c.1 c.2 }

/-! ## Values -/

/-- The number that a value is. -/
def number? : Value → Option Number
  | .num n => some n
  | _ => none

/-- A value is a number only by being written as one. -/
theorem number?_eq_some_iff {v : Value} {n : Number} : number? v = some n ↔ v = .num n := by
  cases v <;> simp [number?]

/-- A number that is compared as a double, if the value is one. -/
def Sized : Value → Prop
  | .num n => (asDouble? n).isSome
  | _ => True

/-- Numbers are compared alike from both sides. -/
theorem compareNumbers_swap (m n : Number) :
    compareNumbers m n = (compareNumbers n m).swap := by
  unfold compareNumbers
  cases asDouble? m with
  | none => cases asDouble? n <;> rfl
  | some x =>
      cases asDouble? n with
      | none => rfl
      | some y => exact Std.OrientedOrd.eq_swap

/-- Numbers that are compared as doubles are in order through a third one. -/
theorem compareNumbers_trans {m n k : Number} (hn : Sized (.num n))
    (hmn : (compareNumbers m n).isLE) (hnk : (compareNumbers n k).isLE) :
    (compareNumbers m k).isLE := by
  obtain ⟨y, hy⟩ := Option.isSome_iff_exists.mp hn
  unfold compareNumbers at *
  rw [hy] at hmn hnk
  cases hm : asDouble? m with
  | none => rfl
  | some x =>
      cases hk : asDouble? k with
      | none => rfl
      | some z =>
          rw [hm] at hmn
          rw [hk] at hnk
          exact Std.TransOrd.isLE_trans hmn hnk

/-- Two numbers are compared by value. -/
theorem compareValues_numbers (m n : Number) :
    compareValues (some (.num m)) (some (.num n)) = compareNumbers m n := rfl

/-- Unless both are numbers, values are compared by their texts. -/
theorem compareValues_texts {v w : Value} (h : number? v = none ∨ number? w = none) :
    compareValues (some v) (some w) = compare (sortText v) (sortText w) := by
  cases v with
  | num m =>
      cases w with
      | num n => simp [number?] at h
      | _ => rfl
  | _ => rfl

/-- Values are compared alike from both sides. -/
theorem compareValues_swap (a b : Option Value) :
    compareValues a b = (compareValues b a).swap := by
  match a, b with
  | none, none => rfl
  | none, some v | some v, none => cases v <;> rfl
  | some v, some w =>
      cases hv : number? v with
      | none =>
          rw [compareValues_texts (.inl hv), compareValues_texts (.inr hv)]
          exact Std.OrientedOrd.eq_swap
      | some m =>
          cases hw : number? w with
          | none =>
              rw [compareValues_texts (.inr hw), compareValues_texts (.inl hw)]
              exact Std.OrientedOrd.eq_swap
          | some n =>
              rw [number?_eq_some_iff.mp hv, number?_eq_some_iff.mp hw]
              exact compareNumbers_swap m n

/-- Where the text of a value that is no number stands between the texts of two numbers,
these have the same order by value as by text. -/
def Coherent (values : List Value) : Prop :=
  ∀ m ∈ values.filterMap number?, ∀ n ∈ values.filterMap number?,
    ∀ v ∈ values.filter (number? · == none),
      (compare m.text (sortText v)).isLE → (compare (sortText v) n.text).isLE →
        compareNumbers m n = compare m.text n.text

instance (values : List Value) : Decidable (Coherent values) := by
  unfold Coherent
  infer_instance

section Coherent

variable {values : List Value} {m n : Number} {v : Value}

/-- The numbers among some values are those that the values are. -/
theorem mem_numbers : n ∈ values.filterMap number? ↔ .num n ∈ values := by
  rw [List.mem_filterMap]
  constructor
  · rintro ⟨w, hw, hn⟩
    exact number?_eq_some_iff.mp hn ▸ hw
  · intro h
    exact ⟨.num n, h, rfl⟩

/-- A transitive comparison takes the way over a text as the direct one. -/
theorem coherent_of_trans
    (htrans : ∀ a ∈ values, ∀ b ∈ values, ∀ c ∈ values,
      (compareValues (some a) (some b)).isLE → (compareValues (some b) (some c)).isLE →
        (compareValues (some a) (some c)).isLE) : Coherent values := by
  intro m hm n hn v hv hmv hvn
  obtain ⟨hv, htext⟩ := List.mem_filter.mp hv
  have htext : number? v = none := by simpa using htext
  have hnum : .num m ∈ values := mem_numbers.mp hm
  have hnum' : .num n ∈ values := mem_numbers.mp hn
  have hleft : ∀ k : Number, compareValues (some (.num k)) (some v) =
      compare k.text (sortText v) := fun k => compareValues_texts (.inr htext)
  have hright : ∀ k : Number, compareValues (some v) (some (.num k)) =
      compare (sortText v) k.text := fun k => compareValues_texts (.inl htext)
  have hle : (compareNumbers m n).isLE :=
    htrans _ hnum v hv _ hnum' (by rwa [hleft]) (by rwa [hright])
  -- If the numbers tie, or come the other way round, both have the text in the middle.
  have htie : (compareNumbers n m).isLE → m.text = n.text := by
    intro hback
    have hnv := htrans _ hnum' _ hnum v hv hback (by rwa [hleft])
    have hvm := htrans v hv _ hnum' _ hnum (by rwa [hright]) hback
    rw [hleft] at hnv
    rw [hright] at hvm
    have hmiddle := Std.LawfulEqOrd.eq_of_compare (Std.OrientedCmp.isLE_antisymm hmv hvm)
    have hmiddle' := Std.LawfulEqOrd.eq_of_compare (Std.OrientedCmp.isLE_antisymm hvn hnv)
    rw [hmiddle, hmiddle']
  cases horder : compareNumbers m n with
  | gt => simp [horder] at hle
  | eq =>
      have hback : (compareNumbers n m).isLE := by
        rw [compareNumbers_swap, horder]
        rfl
      rw [htie hback, Std.ReflOrd.compare_self]
  | lt =>
      have hall := Std.TransOrd.isLE_trans hmv hvn
      cases hc : compare m.text n.text with
      | lt => rfl
      | gt => simp [hc] at hall
      | eq =>
          have hsame : m.text = n.text := Std.LawfulEqOrd.eq_of_compare hc
          have hback := htrans _ hnum' v hv _ hnum (by rwa [hleft, ← hsame])
            (by rwa [hright, hsame])
          rw [compareValues_numbers, compareNumbers_swap, horder] at hback
          simp at hback

/-- Over coherent values the comparison is transitive. -/
theorem Coherent.trans (h : Coherent values) (hsized : ∀ v ∈ values, Sized v)
    {a b c : Value} (ha : a ∈ values) (hb : b ∈ values) (hc : c ∈ values)
    (hab : (compareValues (some a) (some b)).isLE)
    (hbc : (compareValues (some b) (some c)).isLE) :
    (compareValues (some a) (some c)).isLE := by
  have hplace : ∀ {m n : Number} {v : Value}, .num m ∈ values → .num n ∈ values → v ∈ values →
      number? v = none → (compare m.text (sortText v)).isLE →
        (compare (sortText v) n.text).isLE → compareNumbers m n = compare m.text n.text :=
    fun hm hn hv htext => h _ (mem_numbers.mpr hm) _ (mem_numbers.mpr hn) _
      (List.mem_filter.mpr ⟨hv, by simp [htext]⟩)
  cases hna : number? a with
  | none =>
      cases hnb : number? b with
      | none =>
          rw [compareValues_texts (.inl hna)] at hab ⊢
          rw [compareValues_texts (.inl hnb)] at hbc
          exact Std.TransOrd.isLE_trans hab hbc
      | some m =>
          obtain rfl := number?_eq_some_iff.mp hnb
          rw [compareValues_texts (.inl hna)] at hab ⊢
          cases hnc : number? c with
          | none =>
              rw [compareValues_texts (.inr hnc)] at hbc
              exact Std.TransOrd.isLE_trans hab hbc
          | some n =>
              obtain rfl := number?_eq_some_iff.mp hnc
              -- Otherwise the text stands between the two numbers the other way round.
              by_contra hnot
              have hback : compare n.text (sortText a) = .lt :=
                Std.OrientedCmp.lt_of_not_isLE hnot
              have horder := hplace hc hb ha hna (by rw [hback]; rfl) hab
              have hlt : compare n.text m.text = .lt := Std.TransCmp.lt_of_lt_of_isLE hback hab
              rw [compareValues_numbers, compareNumbers_swap, horder, hlt] at hbc
              simp at hbc
  | some m =>
      obtain rfl := number?_eq_some_iff.mp hna
      cases hnb : number? b with
      | none =>
          rw [compareValues_texts (.inr hnb)] at hab
          rw [compareValues_texts (.inl hnb)] at hbc
          have hall := Std.TransOrd.isLE_trans hab hbc
          cases hnc : number? c with
          | none => rwa [compareValues_texts (.inr hnc)]
          | some n =>
              obtain rfl := number?_eq_some_iff.mp hnc
              rw [compareValues_numbers, hplace ha hc hb hnb hab hbc]
              exact hall
      | some n =>
          obtain rfl := number?_eq_some_iff.mp hnb
          cases hnc : number? c with
          | none =>
              rw [compareValues_texts (.inr hnc)] at hbc ⊢
              by_contra hnot
              have hback : compare (sortText c) m.text = .lt :=
                Std.OrientedCmp.lt_of_not_isLE hnot
              have horder := hplace hb ha hc hnc hbc (by rw [hback]; rfl)
              have hlt : compare n.text m.text = .lt := Std.TransCmp.lt_of_isLE_of_lt hbc hback
              rw [compareValues_numbers, compareNumbers_swap, horder, hlt] at hab
              simp at hab
          | some k =>
              obtain rfl := number?_eq_some_iff.mp hnc
              exact compareNumbers_trans (hsized _ hb) hab hbc

/-- **Values have an order** exactly if no text is in the way of two numbers. -/
theorem compareValues_preorder_iff (hsized : ∀ v ∈ values, Sized v) :
    PreorderOn (fun v w => compareValues (some v) (some w)) values ↔ Coherent values := by
  rw [preorderOn_iff fun v w => compareValues_swap _ _]
  exact ⟨coherent_of_trans, fun h a ha b hb c hc => h.trans hsized ha hb hc⟩

/-- Fewer values are coherent with more of them. -/
theorem Coherent.of_subset {others : List Value} (h : Coherent values) (hsub : others ⊆ values) :
    Coherent others := by
  intro m hm n hn v hv
  obtain ⟨hv, htext⟩ := List.mem_filter.mp hv
  exact h m (mem_numbers.mpr (hsub (mem_numbers.mp hm))) n
    (mem_numbers.mpr (hsub (mem_numbers.mp hn))) v (List.mem_filter.mpr ⟨hsub hv, htext⟩)

/-- Numbers alone are coherent. -/
theorem coherent_of_numbers (h : ∀ v ∈ values, number? v ≠ none) : Coherent values := by
  intro m _ n _ v hv
  obtain ⟨hv, htext⟩ := List.mem_filter.mp hv
  exact absurd (by simpa using htext) (h v hv)

/-- Texts alone are coherent. -/
theorem coherent_of_texts (h : ∀ v ∈ values, number? v = none) : Coherent values := by
  intro m hm
  have hnumber := h _ (mem_numbers.mp hm)
  simp [number?] at hnumber

end Coherent

/-! ## Objects -/

/-- The values of objects under a key. -/
def valuesAt (key : String) (objects : List Object) : List Value :=
  objects.filterMap (·.get? key)

/-- The order of objects by one key. -/
def compareKey (k : OrderKey) (a b : Object) : Ordering :=
  if k.descending then (compareValues (a.get? k.key) (b.get? k.key)).swap
  else compareValues (a.get? k.key) (b.get? k.key)

/-- Objects are compared by a key alike from both sides. -/
theorem compareKey_swap (k : OrderKey) (a b : Object) :
    compareKey k a b = (compareKey k b a).swap := by
  unfold compareKey
  rw [compareValues_swap (b.get? k.key)]
  cases k.descending <;> simp

/-- The first key decides, and the others decide between equals. -/
theorem compareObjects_cons (k : OrderKey) (rest : List OrderKey) :
    compareObjects (k :: rest) = compareLex (compareKey k) (compareObjects rest) := rfl

/-- One key orders objects by itself. -/
@[simp] theorem compareObjects_singleton (k : OrderKey) : compareObjects [k] = compareKey k := by
  funext a b
  rw [compareObjects_cons, compareLex]
  exact Ordering.then_eq

/-- Objects are compared alike from both sides. -/
theorem compareObjects_swap (keys : List OrderKey) (a b : Object) :
    compareObjects keys a b = (compareObjects keys b a).swap := by
  induction keys with
  | nil => rfl
  | cons k rest ih =>
      rw [compareObjects_cons, compareLex, compareLex, compareKey_swap, ih, Ordering.swap_then]

variable {objects : List Object}

/-- A key orders objects as the values under it, whichever direction it has. -/
theorem compareKey_preorder_iff_values {k : OrderKey} :
    PreorderOn (compareKey k) objects ↔
      ∀ a ∈ objects, ∀ b ∈ objects, ∀ c ∈ objects,
        (compareValues (a.get? k.key) (b.get? k.key)).isLE →
          (compareValues (b.get? k.key) (c.get? k.key)).isLE →
            (compareValues (a.get? k.key) (c.get? k.key)).isLE := by
  rw [preorderOn_iff (compareKey_swap k)]
  unfold compareKey
  cases k.descending with
  | false => rfl
  | true =>
      simp only [if_true, ← compareValues_swap]
      exact ⟨fun h a ha b hb c hc hab hbc => h c hc b hb a ha hbc hab,
        fun h a ha b hb c hc hba hcb => h c hc b hb a ha hcb hba⟩

/-- **Objects have an order by one key** exactly if their values are coherent; an object
without a value comes first. -/
theorem compareKey_preorder_iff {k : OrderKey}
    (hsized : ∀ v ∈ valuesAt k.key objects, Sized v) :
    PreorderOn (compareKey k) objects ↔ Coherent (valuesAt k.key objects) := by
  rw [← compareValues_preorder_iff hsized, compareKey_preorder_iff_values,
    preorderOn_iff fun a b => compareValues_swap _ _]
  constructor
  · intro h u hu v hv w hw
    obtain ⟨a, ha, hau⟩ := List.mem_filterMap.mp hu
    obtain ⟨b, hb, hbv⟩ := List.mem_filterMap.mp hv
    obtain ⟨c, hc, hcw⟩ := List.mem_filterMap.mp hw
    simpa only [hau, hbv, hcw] using h a ha b hb c hc
  · intro h a ha b hb c hc hab hbc
    have hmem : ∀ {o : Object} {v : Value}, o ∈ objects → o.get? k.key = some v →
        v ∈ valuesAt k.key objects := fun ho hv => List.mem_filterMap.mpr ⟨_, ho, hv⟩
    cases hav : a.get? k.key with
    | none =>
        cases c.get? k.key with
        | none => rfl
        | some w => cases w <;> rfl
    | some u =>
        cases hbv : b.get? k.key with
        | none =>
            rw [hav, hbv] at hab
            cases u <;> cases hab
        | some v =>
            cases hcw : c.get? k.key with
            | none =>
                rw [hbv, hcw] at hbc
                cases v <;> cases hbc
            | some w =>
                rw [hav, hbv] at hab
                rw [hbv, hcw] at hbc
                exact h u (hmem ha hav) v (hmem hb hbv) w (hmem hc hcw) hab hbc

/-- **Objects have an order by several keys** if they have one by each. -/
theorem compareObjects_preorder {keys : List OrderKey}
    (h : ∀ k ∈ keys, PreorderOn (compareKey k) objects) :
    PreorderOn (compareObjects keys) objects := by
  induction keys with
  | nil => exact (preorderOn_iff fun _ _ => rfl).mpr fun _ _ _ _ _ _ _ _ => rfl
  | cons k rest ih =>
      rw [List.forall_mem_cons] at h
      have hfirst := h.1
      have hrest := ih h.2
      exact inferInstanceAs (Std.TransCmp (compareLex
        (fun a b : {o // o ∈ objects} => compareKey k a.1 b.1)
        fun a b => compareObjects rest a.1 b.1))

end ObjectGraph.Decode
