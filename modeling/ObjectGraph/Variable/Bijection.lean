import ObjectGraph.Assoc
import ObjectGraph.Sparql.Term

/-!
# Keys and their variables

A one-to-one map between the keys of an entity and the variables that stand for
them, in the order in which the keys came.  It consists of two maps: entries
lead from the keys to the variables, and an index leads from the names of the
variables back to the keys.  Entering a pair drops whatever else was known of
its key and of its variable, in each of the maps.

What the two maps say is the same (`KeyVars.Mirrors`), so whatever is found in
the index can be read off the entries.
-/

namespace ObjectGraph

open Sparql (Var)

namespace KeyVars

/-- An index of names leads back just where entries lead from, and no key and no
name stands twice. -/
structure Mirrors (index : Assoc String) (entries : Assoc Var) : Prop where
  keys : entries.keys.Nodup
  names : index.keys.Nodup
  agree : ∀ key x, (x.name, key) ∈ index ↔ (key, x) ∈ entries

/-- The index without the variable that a key has in the entries. -/
def dropVar (index : Assoc String) (entries : Assoc Var) (key : String) : Assoc String :=
  match entries.get? key with
  | some old => index.erase old.name
  | none => index

/-- The entries without the key that a variable has in the index, unless it is
the key that the variable is for. -/
def dropKey (index : Assoc String) (entries : Assoc Var) (key : String) (x : Var) : Assoc Var :=
  match index.get? x.name with
  | some old => if old = key then entries else entries.erase old
  | none => entries

namespace Mirrors

variable {index : Assoc String} {entries : Assoc Var} (h : Mirrors index entries)
include h

/-- What leaves the index is the one entry that leads back to the key. -/
theorem dropVar_eq (key : String) :
    dropVar index entries key = index.filter fun e => e.2 != key := by
  unfold dropVar
  split
  next old hold =>
    have hmem : (key, old) ∈ entries := Assoc.mem_of_get? hold
    rw [Assoc.erase_eq_filter h.names]
    refine List.filter_congr fun ⟨n, k⟩ he => ?_
    have hk : (k, ⟨n⟩) ∈ entries := (h.agree k ⟨n⟩).mp he
    have hiff : n = old.name ↔ k = key := by
      constructor
      · rintro rfl
        exact Assoc.value_unique h.names he ((h.agree key old).mpr hmem)
      · rintro rfl
        exact congrArg Var.name (Assoc.value_unique h.keys hk hmem)
    exact Bool.eq_iff_iff.mpr (by simp [hiff])
  next hnone =>
    refine (List.filter_eq_self.mpr fun ⟨n, k⟩ he => bne_iff_ne.mpr ?_).symm
    rintro rfl
    exact Assoc.get?_eq_none_iff.mp hnone (List.mem_map_of_mem ((h.agree k ⟨n⟩).mp he))

/-- What leaves the entries is another key that has the variable. -/
theorem dropKey_eq (key : String) (x : Var) :
    dropKey (index.filter fun e => e.2 != key) entries key x =
      entries.filter fun e => e.1 == key || e.2 != x := by
  unfold dropKey
  split
  next old hold =>
    obtain ⟨hindex, hne⟩ : (x.name, old) ∈ index ∧ old ≠ key := by
      simpa using Assoc.mem_of_get? hold
    -- the key itself is out of the index by now, so it is another one that is found
    rw [if_neg hne, Assoc.erase_eq_filter h.keys]
    refine List.filter_congr fun ⟨k, y⟩ he => ?_
    have hiff : k = old ↔ k ≠ key ∧ y = x := by
      constructor
      · rintro rfl
        exact ⟨hne, Assoc.value_unique h.keys he ((h.agree k x).mp hindex)⟩
      · rintro ⟨-, rfl⟩
        exact Assoc.value_unique h.names ((h.agree k y).mpr he) hindex
    simp only [ne_eq, hiff]
    by_cases hk : k = key <;> by_cases hy : y = x <;> simp [hk, hy]
  next hnone =>
    refine (List.filter_eq_self.mpr fun ⟨k, y⟩ he => ?_).symm
    by_cases hk : k = key
    · simp [hk]
    · have hy : y ≠ x := by
        rintro rfl
        refine Assoc.get?_eq_none_iff.mp hnone (List.mem_map.mpr ⟨(y.name, k), ?_, rfl⟩)
        exact List.mem_filter.mpr ⟨(h.agree k y).mpr he, bne_iff_ne.mpr hk⟩
      simp [hy]

/-- Entering a pair leaves an index and entries that say the same. -/
theorem enter (key : String) (x : Var) :
    Mirrors (Assoc.insert (dropVar index entries key) x.name key)
      (Assoc.insert (dropKey (dropVar index entries key) entries key x) key x) := by
  rw [h.dropVar_eq, h.dropKey_eq]
  have hkeys : (Assoc.keys (entries.filter fun e => e.1 == key || e.2 != x)).Nodup :=
    h.keys.sublist (List.filter_sublist.map _)
  have hnames : (Assoc.keys (index.filter fun e => e.2 != key)).Nodup :=
    h.names.sublist (List.filter_sublist.map _)
  refine ⟨Assoc.nodup_keys_insert hkeys key x, Assoc.nodup_keys_insert hnames x.name key, ?_⟩
  rintro k ⟨n⟩
  obtain ⟨name⟩ := x
  have hagree := h.agree k ⟨n⟩
  rw [Assoc.mem_insert_iff hnames, Assoc.mem_insert_iff hkeys]
  -- on both sides: the new pair, or an old one of another key and another variable
  simp only [List.mem_filter, hagree]
  grind

end Mirrors

end KeyVars

/-- Pairs of a key and its variable; no key and no variable occurs twice. -/
@[ext]
structure KeyVars where
  entries : Assoc Var
  /-- The keys by the names of their variables. -/
  index : Assoc String
  mirrors : KeyVars.Mirrors index entries

namespace KeyVars

def empty : KeyVars := ⟨[], [], .nil, .nil, by simp⟩

/-- Enters a pair: in the place of its key if that is there, else last. -/
def insert (m : KeyVars) (key : String) (x : Var) : KeyVars :=
  let index := dropVar m.index m.entries key
  ⟨Assoc.insert (dropKey index m.entries key x) key x, Assoc.insert index x.name key,
    m.mirrors.enter key x⟩

/-- The variable of a key. -/
def var? (m : KeyVars) (key : String) : Option Var :=
  m.entries.get? key

/-- The key of the variable with a name. -/
def key? (m : KeyVars) (name : String) : Option String :=
  m.index.get? name

def contains (m : KeyVars) (key : String) : Bool :=
  m.entries.contains key

def keys (m : KeyVars) : List String :=
  m.entries.map (·.1)

def vars (m : KeyVars) : List Var :=
  m.entries.map (·.2)

def size (m : KeyVars) : Nat :=
  m.entries.length

theorem nodup_keys (m : KeyVars) : m.keys.Nodup :=
  m.mirrors.keys

theorem entries_insert (m : KeyVars) (key : String) (x : Var) :
    (m.insert key x).entries =
      Assoc.insert (m.entries.filter fun e => e.1 == key || e.2 != x) key x := by
  change Assoc.insert (dropKey (dropVar m.index m.entries key) m.entries key x) key x = _
  rw [m.mirrors.dropVar_eq, m.mirrors.dropKey_eq]

theorem index_insert (m : KeyVars) (key : String) (x : Var) :
    (m.insert key x).index =
      Assoc.insert (m.index.filter fun e => e.2 != key) x.name key := by
  change Assoc.insert (dropVar m.index m.entries key) x.name key = _
  rw [m.mirrors.dropVar_eq]

/-- A pair after an insertion was there or is the new one. -/
theorem mem_insert {m : KeyVars} {key : String} {x : Var} {e : String × Var}
    (h : e ∈ (m.insert key x).entries) : e ∈ m.entries ∨ e = (key, x) :=
  (Assoc.mem_insert (m.entries_insert key x ▸ h)).imp_left fun he => (List.mem_filter.mp he).1

/-- A key after an insertion was there or is the new one. -/
theorem mem_keys_insert {m : KeyVars} {key k : String} {x : Var}
    (h : k ∈ (m.insert key x).keys) : k ∈ m.keys ∨ k = key := by
  obtain ⟨e, he, rfl⟩ := List.mem_map.mp h
  exact (mem_insert he).imp List.mem_map_of_mem (congrArg Prod.fst)

end KeyVars

end ObjectGraph
