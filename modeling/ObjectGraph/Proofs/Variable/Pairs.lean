import Mathlib.Data.List.Induction
import Mathlib.Data.List.Nodup
import ObjectGraph.Variable.Bijection

/-!
# Pairs of keys and variables

A key has a variable exactly if the index has that key for the variable's name
(`KeyVars.var?_eq_some_iff_key?`), and both maps are of one size (`KeyVars.length_index`).
Entering a pair takes away every other pair of its key or of its variable, adds the pair and
touches no other (`KeyVars.mem_insert_iff`); the keys that stay keep their order, and only a
new key comes behind them (`KeyVars.keys_insert`).

Behind any number of pairs, a pair is therefore still there if it is the last of all that
have its key or its variable (`KeyVars.mem_entered_iff`).
-/

namespace ObjectGraph

open Sparql (Var)

/-! ## Last elements -/

/-- An element is the last of a list that has a property. -/
def IsLast {α : Type} (P : α → Prop) (l : List α) (a : α) : Prop :=
  ∃ front back, l = front ++ a :: back ∧ P a ∧ ∀ b ∈ back, ¬ P b

namespace IsLast

variable {α : Type} {P : α → Prop} {l : List α} {a b : α}

/-- An element put behind all others is the last. -/
theorem of_append (l : List α) (h : P a) : IsLast P (l ++ [a]) a :=
  ⟨l, [], rfl, h, nofun⟩

/-- The last element stays so if one without the property is put behind it. -/
theorem append (h : IsLast P l a) (hb : ¬ P b) : IsLast P (l ++ [b]) a := by
  obtain ⟨front, back, rfl, ha, hback⟩ := h
  refine ⟨front, back ++ [b], by simp, ha, ?_⟩
  intro c hc
  rcases List.mem_append.mp hc with hc | hc
  · exact hback c hc
  · rwa [List.mem_singleton.mp hc]

/-- The last element that has the property has it. -/
theorem holds (h : IsLast P l a) : P a := h.choose_spec.choose_spec.2.1

/-- The last element is one of the list. -/
theorem mem (h : IsLast P l a) : a ∈ l := by
  obtain ⟨front, back, rfl, -⟩ := h
  simp

/-- The last element of a longer list is the one that was added if that has the property, and
else the last one in front of it. -/
theorem append_iff : IsLast P (l ++ [b]) a ↔ (a = b ∧ P b) ∨ (IsLast P l a ∧ ¬ P b) := by
  constructor
  · rintro ⟨front, back, heq, ha, hback⟩
    rcases List.eq_nil_or_concat back with rfl | ⟨back, c, rfl⟩
    · obtain ⟨-, hb⟩ := List.append_inj' heq rfl
      obtain rfl := List.singleton_inj.mp hb
      exact .inl ⟨rfl, ha⟩
    · rw [List.concat_eq_append] at heq hback
      rw [← List.cons_append, ← List.append_assoc] at heq
      obtain ⟨rfl, hb⟩ := List.append_inj' heq rfl
      obtain rfl := List.singleton_inj.mp hb
      rw [List.forall_mem_append] at hback
      exact .inr ⟨⟨front, back, rfl, ha, hback.1⟩, hback.2 b (List.mem_singleton.mpr rfl)⟩
  · rintro (⟨rfl, hb⟩ | ⟨h, hb⟩)
    · exact of_append l hb
    · exact h.append hb

end IsLast

namespace KeyVars

variable {m : KeyVars} {key k : String} {x y : Var}

/-! ## Both directions -/

/-- The variable of a key is the one that is entered with it. -/
theorem var?_eq_some_iff : m.var? key = some x ↔ (key, x) ∈ m.entries :=
  Assoc.get?_eq_some_iff m.nodup_keys

/-- A name is found at the key whose variable has it. -/
theorem key?_eq_some_iff {name : String} :
    m.key? name = some key ↔ (key, ⟨name⟩) ∈ m.entries :=
  (Assoc.get?_eq_some_iff m.mirrors.names).trans (m.mirrors.agree key ⟨name⟩)

/-- A key has a variable if the variable has the key. -/
theorem var?_eq_some_iff_key? : m.var? key = some x ↔ m.key? x.name = some key :=
  var?_eq_some_iff.trans key?_eq_some_iff.symm

/-- The keys are those that have a variable. -/
theorem mem_keys_iff : key ∈ m.keys ↔ ∃ x, m.var? key = some x := by
  rw [← Option.isSome_iff_exists]
  exact Assoc.contains_iff.symm

/-- No variable has two keys. -/
theorem nodup_vars (m : KeyVars) : m.vars.Nodup := by
  refine List.Nodup.map_on (fun e he d hd heq => ?_) (List.Nodup.of_map _ m.nodup_keys)
  obtain ⟨k, y⟩ := e
  obtain ⟨l, z⟩ := d
  obtain rfl : y = z := heq
  have hkey : k = l := Assoc.value_unique m.mirrors.names
    ((m.mirrors.agree k y).mpr he) ((m.mirrors.agree l y).mpr hd)
  rw [hkey]

/-- The names in the index are those of the variables. -/
theorem names_perm (m : KeyVars) : (Assoc.keys m.index).Perm (m.vars.map Var.name) := by
  have hnames : (m.vars.map Var.name).Nodup :=
    m.nodup_vars.map fun y z heq => congrArg Var.mk heq
  refine (List.perm_ext_iff_of_nodup m.mirrors.names hnames).mpr fun name => ?_
  constructor
  · intro hmem
    obtain ⟨⟨n, k⟩, he, rfl⟩ := List.mem_map.mp hmem
    have hentry : (k, ⟨n⟩) ∈ m.entries := (m.mirrors.agree k ⟨n⟩).mp he
    exact List.mem_map.mpr ⟨⟨n⟩, List.mem_map.mpr ⟨_, hentry, rfl⟩, rfl⟩
  · intro hmem
    obtain ⟨y, hy, rfl⟩ := List.mem_map.mp hmem
    obtain ⟨⟨k, y⟩, he, rfl⟩ := List.mem_map.mp hy
    exact List.mem_map.mpr ⟨(y.name, k), (m.mirrors.agree k y).mpr he, rfl⟩

/-- The index has as many entries as the map. -/
theorem length_index (m : KeyVars) : m.index.length = m.entries.length := by
  have hlength := m.names_perm.length_eq
  simpa only [Assoc.keys, vars, List.length_map] using hlength

/-! ## Entering a pair -/

/-- Entering a pair takes away what else was known of its key and of its variable. -/
theorem mem_insert_iff :
    (k, y) ∈ (m.insert key x).entries ↔
      (k = key ∧ y = x) ∨ ((k, y) ∈ m.entries ∧ k ≠ key ∧ y ≠ x) := by
  rw [entries_insert,
    Assoc.mem_insert_iff (m.nodup_keys.sublist (List.filter_sublist.map Prod.fst))]
  simp only [Prod.mk.injEq, List.mem_filter, Bool.or_eq_true, beq_iff_eq, bne_iff_ne]
  grind

/-- Entering a pair takes its key and its variable away from all others. -/
theorem var?_insert_eq_some_iff :
    (m.insert key x).var? k = some y ↔
      (k = key ∧ y = x) ∨ (m.var? k = some y ∧ k ≠ key ∧ y ≠ x) := by
  rw [var?_eq_some_iff, var?_eq_some_iff, mem_insert_iff]

/-- A variable stays if its key does not get another one. -/
theorem mem_vars_insert (hy : y ∈ m.vars) (hkey : (key, y) ∈ m.entries → y = x) :
    y ∈ (m.insert key x).vars := by
  obtain ⟨⟨k, y⟩, hmem, rfl⟩ := List.mem_map.mp hy
  by_cases heq : y = x
  · exact List.mem_map.mpr ⟨(key, y), mem_insert_iff.mpr (.inl ⟨rfl, heq⟩), rfl⟩
  · have hne : k ≠ key := by
      rintro rfl
      exact heq (hkey hmem)
    exact List.mem_map.mpr ⟨(k, y), mem_insert_iff.mpr (.inr ⟨hmem, hne, heq⟩), rfl⟩

/-- The keys that stay where they are when a pair is entered: all but another key that has
the variable. -/
def staying (m : KeyVars) (key : String) (x : Var) : List String :=
  m.keys.filter fun k => decide (m.var? k = some x → k = key)

/-- A key stays where it is if it is there already. -/
theorem mem_staying_self : key ∈ m.staying key x ↔ key ∈ m.keys := by
  simp [staying]

/-- A new key comes last. -/
theorem keys_insert (m : KeyVars) (key : String) (x : Var) :
    (m.insert key x).keys =
      if key ∈ m.keys then m.staying key x else m.staying key x ++ [key] := by
  have hstaying : Assoc.keys (m.entries.filter fun e => e.1 == key || e.2 != x) =
      m.staying key x := by
    unfold staying keys Assoc.keys
    rw [List.filter_map]
    refine congrArg (List.map Prod.fst) (List.filter_congr fun ⟨k, y⟩ he => ?_)
    have hvar : m.var? k = some y := var?_eq_some_iff.mpr he
    rw [Bool.eq_iff_iff]
    simp only [Function.comp, hvar, Bool.or_eq_true, beq_iff_eq, bne_iff_ne,
      decide_eq_true_iff, Option.some.injEq]
    grind
  have hkeys : (m.insert key x).keys =
      Assoc.keys (Assoc.insert (m.entries.filter fun e => e.1 == key || e.2 != x) key x) :=
    congrArg (List.map Prod.fst) (m.entries_insert key x)
  rw [hkeys, Assoc.keys_insert, hstaying]
  simp only [mem_staying_self]

/-! ## Entering many pairs -/

/-- The map behind pairs that are entered one after the other. -/
def entered (pairs : List (String × Var)) : KeyVars :=
  pairs.foldl (fun m e => m.insert e.1 e.2) .empty

/-- Whether a pair has a key or a variable. -/
def Concerns (key : String) (x : Var) (e : String × Var) : Prop :=
  e.1 = key ∨ e.2 = x

/-- Pairs are entered one after the other. -/
theorem entered_append (pairs : List (String × Var)) (e : String × Var) :
    entered (pairs ++ [e]) = (entered pairs).insert e.1 e.2 :=
  List.foldl_concat ..

/-- A pair is there if none behind it has its key or its variable. -/
theorem mem_entered_iff (pairs : List (String × Var)) :
    (key, x) ∈ (entered pairs).entries ↔ IsLast (Concerns key x) pairs (key, x) := by
  induction pairs using List.reverseRecOn with
  | nil =>
      refine iff_of_false List.not_mem_nil fun h => ?_
      exact List.not_mem_nil h.mem
  | append_singleton front e ih =>
      obtain ⟨k, y⟩ := e
      rw [entered_append, mem_insert_iff, ih, IsLast.append_iff, Prod.mk.injEq]
      unfold Concerns
      grind

/-- **Keys and variables stay one to one.**  Whatever pairs have been entered, a key has a
variable exactly if the variable leads back to the key, which is to say that no pair behind
theirs has the key or the variable; and both maps are of one size.  One more pair takes away
the pairs that have its key or its variable, and adds itself.  The keys that are left stay in
their order: a key that was there stays where it was, and a new one comes last. -/
theorem entered_one_to_one (pairs : List (String × Var)) :
    let m := entered pairs
    (∀ key x, m.var? key = some x ↔ m.key? x.name = some key) ∧
      (∀ key x, m.var? key = some x ↔ IsLast (Concerns key x) pairs (key, x)) ∧
      m.index.length = m.entries.length ∧
      m.keys.Nodup ∧ (∀ key, key ∈ m.keys ↔ ∃ x, m.var? key = some x) ∧
      ∀ key x,
        (∀ k y, (m.insert key x).var? k = some y ↔
          (k = key ∧ y = x) ∨ (m.var? k = some y ∧ k ≠ key ∧ y ≠ x)) ∧
        (m.insert key x).keys =
          if key ∈ m.keys then m.staying key x else m.staying key x ++ [key] := by
  intro m
  refine ⟨fun key x => var?_eq_some_iff_key?, fun key x => ?_, m.length_index, m.nodup_keys,
    fun key => mem_keys_iff, fun key x => ⟨fun k y => var?_insert_eq_some_iff, ?_⟩⟩
  · exact var?_eq_some_iff.trans (mem_entered_iff pairs)
  · exact m.keys_insert key x

/-- A pair takes the place of its key and drops the key that its variable had. -/
example :
    (entered [("title", ⟨"x"⟩), ("name", ⟨"y"⟩), ("label", ⟨"z"⟩), ("label", ⟨"x"⟩)]).entries =
    [("name", ⟨"y"⟩), ("label", ⟨"x"⟩)] := by decide

end KeyVars

end ObjectGraph
