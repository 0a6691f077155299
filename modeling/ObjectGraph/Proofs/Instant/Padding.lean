import Mathlib.Algebra.Order.Ring.Nat
import ObjectGraph.Instant
import ObjectGraph.Proofs.Number.Digits

/-!
# Numbers with leading zeros

A number that is padded to a width has that many digits (`length_padded`) and makes itself
again (`natOfDigits_padded`); it is the only spelling with as many digits
(`padded_natOfDigits`).  Texts that start with numbers of one width come in the order of
these numbers (`padded_append_lt_iff`).
-/

namespace ObjectGraph

variable {ds es : List Char} {c : Char}

/-! ## Values of digits -/

/-- Digits in front of others count for as many places more. -/
theorem natOfDigits_append (ds es : List Char) :
    natOfDigits (ds ++ es) = 10 ^ es.length * natOfDigits ds + natOfDigits es := by
  show Nat.ofDigitChars 10 (ds ++ es) 0 = _
  rw [Nat.ofDigitChars_append, Nat.ofDigitChars_eq_ofDigitChars_zero]
  rfl

/-- The first digit counts for as many places as there are behind it. -/
theorem natOfDigits_cons (c : Char) (ds : List Char) :
    natOfDigits (c :: ds) = 10 ^ ds.length * (c.toNat - 48) + natOfDigits ds := by
  have happend := natOfDigits_append [c] ds
  simpa [natOfDigits] using happend

/-- Digits make a number below the power of ten with as many zeros. -/
theorem natOfDigits_lt (h : ∀ c ∈ ds, c.isDigit = true) : natOfDigits ds < 10 ^ ds.length := by
  induction ds with
  | nil => exact Nat.one_pos
  | cons c rest ih =>
      obtain ⟨hc, hrest⟩ := List.forall_mem_cons.mp h
      have hdigit : c.toNat - 48 ≤ 9 := Nat.sub_le_of_le_add (toNat_of_isDigit hc).2
      calc natOfDigits (c :: rest)
          = 10 ^ rest.length * (c.toNat - 48) + natOfDigits rest := natOfDigits_cons c rest
        _ < 10 ^ rest.length * 9 + 10 ^ rest.length :=
            Nat.add_lt_add_of_le_of_lt (Nat.mul_le_mul_left _ hdigit) (ih hrest)
        _ = 10 ^ (c :: rest).length := by rw [List.length_cons, Nat.pow_succ]; omega

/-- Numbers with a rest below a bound have the order of the numbers, then of the rests. -/
theorem mul_add_lt_mul_add_iff {m n a b k : Nat} (ha : a < k) (hb : b < k) :
    k * m + a < k * n + b ↔ m < n ∨ m = n ∧ a < b := by
  rcases Nat.lt_trichotomy m n with hlt | rfl | hgt
  · have hstep : k * m + k ≤ k * n := Nat.mul_le_mul_left k hlt
    omega
  · omega
  · have hstep : k * n + k ≤ k * m := Nat.mul_le_mul_left k hgt
    omega

/-- A number is told apart into multiples of the bound and what is left below it. -/
theorem mul_add_inj {m n a b k : Nat} (ha : a < k) (hb : b < k) :
    k * m + a = k * n + b ↔ m = n ∧ a = b := by
  rcases Nat.lt_trichotomy m n with hlt | rfl | hgt
  · have hstep : k * m + k ≤ k * n := Nat.mul_le_mul_left k hlt
    omega
  · omega
  · have hstep : k * n + k ≤ k * m := Nat.mul_le_mul_left k hgt
    omega

/-- Texts that start with as many digits have the order of the numbers. -/
theorem digits_append_lt_iff {xs ys : List Char} (hds : ∀ c ∈ ds, c.isDigit = true)
    (hes : ∀ c ∈ es, c.isDigit = true) (hlength : ds.length = es.length) :
    ds ++ xs < es ++ ys ↔
      natOfDigits ds < natOfDigits es ∨ natOfDigits ds = natOfDigits es ∧ xs < ys := by
  induction ds generalizing es with
  | nil =>
      obtain rfl := List.eq_nil_of_length_eq_zero hlength.symm
      simp
  | cons c ds ih =>
      obtain ⟨d, es, rfl⟩ := List.exists_cons_of_length_eq_add_one hlength.symm
      obtain ⟨hc, hds⟩ := List.forall_mem_cons.mp hds
      obtain ⟨hd, hes⟩ := List.forall_mem_cons.mp hes
      have hlength : ds.length = es.length := Nat.succ.inj hlength
      have hlow := natOfDigits_lt hds
      have hlow' := natOfDigits_lt hes
      rw [hlength] at hlow
      have hbound := toNat_of_isDigit hc
      have hbound' := toNat_of_isDigit hd
      have hfirst : c < d ↔ c.toNat - 48 < d.toNat - 48 := by
        show c.toNat < d.toNat ↔ _
        omega
      have hfirst' : c = d ↔ c.toNat - 48 = d.toNat - 48 := by
        rw [← Char.toNat_inj]
        omega
      rw [List.cons_append, List.cons_append, List.cons_lt_cons_iff, ih hds hes hlength, hfirst,
        hfirst', natOfDigits_cons, natOfDigits_cons, hlength, mul_add_lt_mul_add_iff hlow hlow',
        mul_add_inj hlow hlow']
      simp only [and_or_left, or_assoc, and_assoc]

/-- Different digits make different numbers, if there are as many. -/
theorem eq_of_natOfDigits_eq (hds : ∀ c ∈ ds, c.isDigit = true) (hes : ∀ c ∈ es, c.isDigit = true)
    (hlength : ds.length = es.length) (heq : natOfDigits ds = natOfDigits es) : ds = es := by
  have hnot : ¬ ds ++ [] < es ++ [] := by
    rw [digits_append_lt_iff hds hes hlength, heq]
    simp
  have hnot' : ¬ es ++ [] < ds ++ [] := by
    rw [digits_append_lt_iff hes hds hlength.symm, heq]
    simp
  rw [List.append_nil, List.append_nil] at hnot hnot'
  exact List.le_antisymm (List.not_lt.mp hnot') (List.not_lt.mp hnot)

/-! ## Padded numbers -/

namespace Instant

variable {width n m : Nat}

/-- A number that fits is written with as many digits as asked for. -/
theorem length_padded (hwidth : 0 < width) (hn : n < 10 ^ width) :
    (padded width n).length = width := by
  have hle := (Nat.length_toDigits_le_iff (by decide) hwidth).mpr hn
  simp only [padded, List.length_append, List.length_replicate]
  omega

/-- Padding consists of digits. -/
theorem isDigit_of_mem_padded (h : c ∈ padded width n) : c.isDigit = true := by
  rcases List.mem_append.mp h with hzero | hdigit
  · rw [(List.mem_replicate.mp hzero).2]
    decide
  · exact Nat.isDigit_of_mem_toDigits (by decide) (by decide) hdigit

/-- Leading zeros leave a number as it is. -/
theorem natOfDigits_padded (width n : Nat) : natOfDigits (padded width n) = n := by
  rw [padded, natOfDigits_append, natOfDigits_toDigits]
  show 10 ^ _ * Nat.ofDigitChars 10 (List.replicate _ '0') 0 + n = n
  rw [Nat.ofDigitChars_replicate_zero, Nat.mul_zero, Nat.mul_zero, Nat.zero_add]

/-- Digits are the spelling of their number with as many digits. -/
theorem padded_natOfDigits (hne : ds ≠ []) (hds : ∀ c ∈ ds, c.isDigit = true) :
    padded ds.length (natOfDigits ds) = ds :=
  eq_of_natOfDigits_eq (fun _ => isDigit_of_mem_padded) hds
    (length_padded (List.length_pos_iff.mpr hne) (natOfDigits_lt hds))
    (natOfDigits_padded _ _)

/-- Different numbers are padded to different texts. -/
theorem padded_inj : padded width m = padded width n ↔ m = n := by
  constructor
  · intro h
    rw [← natOfDigits_padded width m, h, natOfDigits_padded]
  · rintro rfl
    rfl

/-- **Numbers of one width** come in their order, and then what follows them. -/
theorem padded_append_lt_iff {xs ys : List Char} (hwidth : 0 < width) (hm : m < 10 ^ width)
    (hn : n < 10 ^ width) :
    padded width m ++ xs < padded width n ++ ys ↔ m < n ∨ m = n ∧ xs < ys := by
  rw [digits_append_lt_iff (fun _ => isDigit_of_mem_padded) (fun _ => isDigit_of_mem_padded)
      (by rw [length_padded hwidth hm, length_padded hwidth hn]),
    natOfDigits_padded, natOfDigits_padded]

/-- A number padded to its width can be told from what stands behind it. -/
theorem padded_append_inj {xs ys : List Char} (hwidth : 0 < width) (hm : m < 10 ^ width)
    (hn : n < 10 ^ width) :
    padded width m ++ xs = padded width n ++ ys ↔ m = n ∧ xs = ys := by
  constructor
  · intro h
    obtain ⟨hfirst, hrest⟩ := List.append_inj h
      (by rw [length_padded hwidth hm, length_padded hwidth hn])
    exact ⟨padded_inj.mp hfirst, hrest⟩
  · rintro ⟨rfl, rfl⟩
    rfl

/-! ## Readers -/

/-- What is read as digits is a padded number. -/
theorem readDigits?_eq_some_iff {cs rest : List Char} (hwidth : 0 < width) :
    readDigits? width cs = some (n, rest) ↔ n < 10 ^ width ∧ cs = padded width n ++ rest := by
  unfold readDigits?
  dsimp only
  constructor
  · intro h
    split at h
    next hread =>
      obtain ⟨hlength, hall⟩ := hread
      obtain ⟨rfl, rfl⟩ := Prod.mk.inj (Option.some.inj h)
      have hdigits := List.all_eq_true.mp hall
      have hne : cs.take width ≠ [] := List.length_pos_iff.mp (hwidth.trans_eq hlength.symm)
      have hpadded := padded_natOfDigits hne hdigits
      have hlt := natOfDigits_lt hdigits
      rw [hlength] at hpadded hlt
      exact ⟨hlt, by rw [hpadded, List.take_append_drop]⟩
    next => cases h
  · rintro ⟨hn, rfl⟩
    have hlength := length_padded hwidth hn
    have htake : (padded width n ++ rest).take width = padded width n :=
      List.take_left' hlength
    have hdrop : (padded width n ++ rest).drop width = rest := List.drop_left' hlength
    rw [htake, hdrop, natOfDigits_padded, if_pos]
    exact ⟨hlength, List.all_eq_true.mpr fun _ => isDigit_of_mem_padded⟩

/-- A character is read where it stands in front. -/
theorem readChar?_eq_some_iff {cs rest : List Char} :
    readChar? c cs = some rest ↔ cs = c :: rest := by
  cases cs with
  | nil => simp [readChar?]
  | cons d cs => simp [readChar?]

/-- A pair of digits is read where it stands in front and lies within the bounds. -/
theorem readPair?_eq_some_iff {low high : Nat} {cs rest : List Char} (hhigh : high < 100) :
    readPair? low high cs = some (n, rest) ↔ (low ≤ n ∧ n ≤ high) ∧ cs = padded 2 n ++ rest := by
  unfold readPair?
  simp only [bind, Option.bind_eq_some_iff, Prod.exists, readDigits?_eq_some_iff Nat.two_pos,
    Option.ite_none_right_eq_some]
  constructor
  · rintro ⟨n, rest, ⟨-, rfl⟩, hbounds, ⟨⟩⟩
    exact ⟨hbounds, rfl⟩
  · rintro ⟨hbounds, rfl⟩
    exact ⟨n, rest, ⟨hbounds.2.trans_lt hhigh, rfl⟩, hbounds, rfl⟩

end Instant

end ObjectGraph
