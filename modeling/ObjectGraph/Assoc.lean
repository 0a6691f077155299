/-!
# Insertion-ordered maps with string keys

An `Assoc α` is a list of entries in the order in which their keys first came.
Looking up takes the first entry of a key.  `insert` keeps the place of a key
that is there and puts a new key last; `erase` closes the gap; `swapErase`
lets the last entry fill it, which is cheaper and shows in the order of what
is left.
-/

namespace ObjectGraph

/-- Entries in first-seen order of their keys. -/
abbrev Assoc (α : Type) := List (String × α)

namespace Assoc

variable {α : Type}

/-- The value of the first entry with this key. -/
def get? : Assoc α → String → Option α
  | [], _ => none
  | (k, v) :: rest, key => if k = key then some v else get? rest key

/-- Whether some entry has this key. -/
def contains (m : Assoc α) (key : String) : Bool :=
  (get? m key).isSome

/-- The keys in order. -/
def keys (m : Assoc α) : List String :=
  m.map Prod.fst

/-- Sets a key: in its place if it is there, else as the last entry. -/
def insert : Assoc α → String → α → Assoc α
  | [], key, value => [(key, value)]
  | (k, v) :: rest, key, value =>
    if k = key then (key, value) :: rest else (k, v) :: insert rest key value

/-- Removes a key; the entries behind it move up. -/
def erase : Assoc α → String → Assoc α
  | [], _ => []
  | (k, v) :: rest, key => if k = key then rest else (k, v) :: erase rest key

/-- Removes a key; the last entry takes its place. -/
def swapErase : Assoc α → String → Assoc α
  | [], _ => []
  | (k, v) :: rest, key =>
    if k = key then
      match rest.getLast? with
      | none => []
      | some last => last :: rest.dropLast
    else (k, v) :: swapErase rest key

/-- Changes the value of a key that is there. -/
def modify (m : Assoc α) (key : String) (f : α → α) : Assoc α :=
  match get? m key with
  | none => m
  | some v => insert m key (f v)

/-- Enters a list of entries one after the other, so that the last entry of a
key gives its value and the first one its place. -/
def ofList (entries : List (String × α)) : Assoc α :=
  entries.foldl (fun m e => insert m e.1 e.2) []

theorem get?_insert (m : Assoc α) (key other : String) (value : α) :
    get? (insert m key value) other = if key = other then some value else get? m other := by
  induction m with
  | nil => simp [insert, get?]
  | cons e rest ih =>
    obtain ⟨k, v⟩ := e
    by_cases h : k = key
    · subst h; by_cases ho : k = other <;> simp [insert, get?, ho]
    · by_cases ho : k = other
      · subst ho; simp [insert, get?, h, Ne.symm h]
      · simp [insert, get?, h, ho, ih]

/-- An entry after an insertion was there or is the new one. -/
theorem mem_insert {m : Assoc α} {key : String} {value : α} {e : String × α}
    (h : e ∈ insert m key value) : e ∈ m ∨ e = (key, value) := by
  induction m with
  | nil => exact .inr (List.mem_singleton.mp h)
  | cons d rest ih =>
    obtain ⟨k, v⟩ := d
    unfold insert at h
    split at h
    · rcases List.mem_cons.mp h with rfl | h
      · exact .inr rfl
      · exact .inl (List.mem_cons_of_mem _ h)
    · rcases List.mem_cons.mp h with rfl | h
      · exact .inl List.mem_cons_self
      · exact (ih h).imp_left (List.mem_cons_of_mem _)

/-- The new entry is there. -/
theorem mem_insert_self (m : Assoc α) (key : String) (value : α) :
    (key, value) ∈ insert m key value := by
  induction m with
  | nil => exact List.mem_cons_self
  | cons d rest ih =>
    unfold insert
    split
    · exact List.mem_cons_self
    · exact List.mem_cons_of_mem _ ih

/-- The entries of other keys stay. -/
theorem mem_insert_of_ne {m : Assoc α} {key : String} {e : String × α} (h : e ∈ m)
    (hne : e.1 ≠ key) (value : α) : e ∈ insert m key value := by
  induction m with
  | nil => cases h
  | cons d rest ih =>
    unfold insert
    rcases List.mem_cons.mp h with rfl | h
    · rw [if_neg hne]
      exact List.mem_cons_self
    · split
      · exact List.mem_cons_of_mem _ h
      · exact List.mem_cons_of_mem _ (ih h)

/-- The value that is found stands under its key. -/
theorem mem_of_get? {m : Assoc α} {key : String} {value : α} (h : get? m key = some value) :
    (key, value) ∈ m := by
  induction m with
  | nil => cases h
  | cons e rest ih =>
    obtain ⟨k, v⟩ := e
    unfold get? at h
    split at h
    next heq =>
      obtain rfl := Option.some.inj h
      exact heq ▸ List.mem_cons_self
    next => exact List.mem_cons_of_mem _ (ih h)

/-- Setting a key adds it behind the others or leaves the keys as they are. -/
theorem keys_insert (m : Assoc α) (key : String) (value : α) :
    keys (insert m key value) = if key ∈ keys m then keys m else keys m ++ [key] := by
  induction m with
  | nil => simp [insert, keys]
  | cons e rest ih =>
    obtain ⟨k, v⟩ := e
    by_cases h : k = key
    · subst h; simp [insert, keys]
    · simp only [keys] at ih
      by_cases hr : key ∈ List.map Prod.fst rest
      · simp [insert, keys, h, ih, hr]
      · simp [insert, keys, h, ih, hr, Ne.symm h]

theorem mem_keys_insert {m : Assoc α} {key other : String} {value : α} :
    other ∈ keys (insert m key value) ↔ other ∈ keys m ∨ other = key := by
  rw [keys_insert]
  split
  next h => exact ⟨.inl, fun ho => ho.elim id (· ▸ h)⟩
  next => simp

theorem nodup_keys_insert {m : Assoc α} (h : (keys m).Nodup) (key : String) (value : α) :
    (keys (insert m key value)).Nodup := by
  rw [keys_insert]
  split
  next => exact h
  next hnew =>
    refine List.nodup_append.2 ⟨h, by simp, ?_⟩
    intro k hk l hl
    rw [List.mem_singleton.1 hl]
    rintro rfl
    exact hnew hk

theorem get?_filter (m : Assoc α) (keep : String → Bool) {key : String}
    (h : keep key = true) : get? (m.filter fun e => keep e.1) key = get? m key := by
  induction m with
  | nil => rfl
  | cons e rest ih =>
    obtain ⟨k, v⟩ := e
    by_cases hk : k = key
    · subst hk
      simp [h, get?]
    · cases hkeep : keep k <;> simp [hkeep, get?, hk, ih]

/-- Setting a key leaves the entries of all others as they are. -/
theorem filter_insert (m : Assoc α) (keep : String → Bool) {key : String} (value : α)
    (h : keep key = false) :
    (insert m key value).filter (fun e => keep e.1) = m.filter fun e => keep e.1 := by
  induction m with
  | nil => simp [insert, h]
  | cons e rest ih =>
    obtain ⟨k, v⟩ := e
    by_cases hk : k = key
    · subst hk
      simp [insert, h]
    · simp [insert, hk, List.filter_cons, ih]

/-- A key has no value exactly if it is not among the keys. -/
theorem get?_eq_none_iff {m : Assoc α} {key : String} : get? m key = none ↔ key ∉ keys m := by
  induction m with
  | nil => simp [get?, keys]
  | cons e rest ih =>
    obtain ⟨k, v⟩ := e
    by_cases h : k = key
    · simp [get?, keys, h]
    · simpa [get?, keys, h, Ne.symm h] using ih

/-- The value of a key is that of its only entry. -/
theorem get?_of_mem {m : Assoc α} (hkeys : (keys m).Nodup) {key : String} {value : α}
    (h : (key, value) ∈ m) : get? m key = some value := by
  induction m with
  | nil => cases h
  | cons e rest ih =>
    obtain ⟨k, v⟩ := e
    obtain ⟨hk, hrest⟩ := List.nodup_cons.1 hkeys
    rcases List.mem_cons.mp h with heq | hmem
    · obtain ⟨rfl, rfl⟩ := Prod.mk.inj heq
      simp [get?]
    · have hne : k ≠ key := by
        rintro rfl
        exact hk (List.mem_map.mpr ⟨_, hmem, rfl⟩)
      simp [get?, hne, ih hrest hmem]

/-- What is found under a key is what stands there, if no key stands twice. -/
theorem get?_eq_some_iff {m : Assoc α} (hkeys : (keys m).Nodup) {key : String} {value : α} :
    get? m key = some value ↔ (key, value) ∈ m :=
  ⟨mem_of_get?, get?_of_mem hkeys⟩

/-- A key that stands once has one value. -/
theorem value_unique {m : Assoc α} (hkeys : (keys m).Nodup) {key : String} {v w : α}
    (hv : (key, v) ∈ m) (hw : (key, w) ∈ m) : v = w :=
  Option.some.inj ((get?_of_mem hkeys hv).symm.trans (get?_of_mem hkeys hw))

/-- Setting a key takes away what it had and nothing else. -/
theorem mem_insert_iff {m : Assoc α} (hkeys : (keys m).Nodup) {key : String} {value : α}
    {e : String × α} : e ∈ insert m key value ↔ e = (key, value) ∨ (e ∈ m ∧ e.1 ≠ key) := by
  constructor
  · intro h
    by_cases hkey : e.1 = key
    · obtain ⟨k, w⟩ := e
      obtain rfl : k = key := hkey
      obtain rfl : w = value :=
        value_unique (nodup_keys_insert hkeys k value) h (mem_insert_self m k value)
      exact .inl rfl
    · refine (mem_insert h).symm.imp_right fun hold => ⟨hold, hkey⟩
  · rintro (rfl | ⟨hold, hkey⟩)
    · exact mem_insert_self m key value
    · exact mem_insert_of_ne hold hkey value

theorem insert_of_not_mem {m : Assoc α} {key : String} (h : key ∉ keys m) (value : α) :
    insert m key value = m ++ [(key, value)] := by
  induction m with
  | nil => rfl
  | cons e rest ih =>
    obtain ⟨k, v⟩ := e
    obtain ⟨hne, hrest⟩ : k ≠ key ∧ key ∉ keys rest := by
      simpa [keys, eq_comm] using h
    simp [insert, hne, ih hrest]

/-- Entries with new keys come behind those that are there. -/
theorem foldl_insert (entries m : Assoc α) (h : (keys m ++ keys entries).Nodup) :
    entries.foldl (fun m e => insert m e.1 e.2) m = m ++ entries := by
  induction entries generalizing m with
  | nil => simp
  | cons e rest ih =>
    have hnew : e.1 ∉ keys m := fun hmem =>
      (List.nodup_append.mp h).2.2 e.1 hmem e.1 List.mem_cons_self rfl
    rw [List.foldl_cons, insert_of_not_mem hnew, ih, List.append_assoc]
    · rfl
    · simpa [keys] using h

/-- Keys that stay apart and values can be replaced before setting a key or after it. -/
theorem map_insert {β : Type} {g : String → String} (hg : ∀ k l, g k = g l → k = l) (f : α → β)
    (m : Assoc α) (key : String) (value : α) :
    (insert m key value).map (Prod.map g f) =
      insert (m.map (Prod.map g f)) (g key) (f value) := by
  induction m with
  | nil => rfl
  | cons e rest ih =>
    obtain ⟨k, v⟩ := e
    by_cases h : k = key
    · simp [insert, h]
    · have hne : g k ≠ g key := fun heq => h (hg k key heq)
      simp [insert, h, hne, ih]

theorem get?_append (m n : Assoc α) (key : String) :
    get? (m ++ n) key = (get? m key).or (get? n key) := by
  induction m with
  | nil => rfl
  | cons e rest ih =>
    obtain ⟨k, v⟩ := e
    by_cases h : k = key
    · simp [get?, h]
    · simpa [get?, h] using ih

theorem get?_erase_of_ne (m : Assoc α) {key other : String} (h : key ≠ other) :
    get? (erase m key) other = get? m other := by
  induction m with
  | nil => rfl
  | cons e rest ih =>
    obtain ⟨k, v⟩ := e
    by_cases hk : k = key
    · subst hk
      simp [erase, get?, h]
    · simp [erase, get?, hk, ih]

/-- Removing a key with a swap keeps the values of the other keys. -/
theorem get?_swapErase_of_ne {m : Assoc α} (hkeys : (keys m).Nodup) {key other : String}
    (h : key ≠ other) : get? (swapErase m key) other = get? m other := by
  induction m with
  | nil => rfl
  | cons e rest ih =>
    obtain ⟨k, v⟩ := e
    obtain ⟨_, hrest⟩ := List.nodup_cons.1 hkeys
    by_cases hk : k = key
    · subst hk
      simp only [swapErase, if_true, get?, h, if_false]
      rcases List.eq_nil_or_concat rest with rfl | ⟨front, last, rfl⟩
      · rfl
      · obtain ⟨l, v⟩ := last
        have hfront : l ∉ keys front := by
          intro hmem
          have hnodup : (keys front ++ [l]).Nodup := by simpa [keys] using hrest
          exact (List.nodup_append.1 hnodup).2.2 l hmem l (by simp) rfl
        rw [List.concat_eq_append, List.getLast?_concat, List.dropLast_concat, get?_append]
        by_cases hl : l = other
        · subst hl
          simp [get?, get?_eq_none_iff.2 hfront]
        · simp [get?, hl]
    · simp [swapErase, get?, hk, ih hrest]

/-- Of different keys, removing one leaves the entries of all others. -/
theorem erase_eq_filter {m : Assoc α} (hkeys : (keys m).Nodup) (key : String) :
    erase m key = m.filter fun e => e.1 ≠ key := by
  induction m with
  | nil => rfl
  | cons e rest ih =>
    obtain ⟨k, v⟩ := e
    obtain ⟨hk, hrest⟩ := List.nodup_cons.1 hkeys
    by_cases h : k = key
    · subst h
      have hall : ∀ e ∈ rest, e.1 ≠ k := fun e he heq =>
        hk (List.mem_map.mpr ⟨e, he, heq⟩)
      simpa [erase] using (List.filter_eq_self.mpr (by simpa using hall)).symm
    · simp [erase, h, ih hrest]

/-- Both ways of removing a key leave the same entries. -/
theorem swapErase_perm (m : Assoc α) (key : String) : (swapErase m key).Perm (erase m key) := by
  induction m with
  | nil => exact .nil
  | cons e rest ih =>
    obtain ⟨k, v⟩ := e
    by_cases h : k = key
    · rcases List.eq_nil_or_concat rest with rfl | ⟨front, last, rfl⟩
      · simp [swapErase, erase, h]
      · simpa [swapErase, erase, h] using (List.perm_append_singleton last front).symm
    · simpa [swapErase, erase, h] using ih

/-- In whatever order entries of different keys come, a key has one value. -/
theorem get?_perm {m n : Assoc α} (hperm : m.Perm n) (hkeys : (keys n).Nodup)
    (key : String) : get? m key = get? n key := by
  have hm : (keys m).Nodup := (hperm.map Prod.fst).nodup_iff.mpr hkeys
  refine Option.ext fun value => ?_
  rw [get?_eq_some_iff hm, get?_eq_some_iff hkeys, hperm.mem_iff]

theorem contains_iff {m : Assoc α} {key : String} : contains m key = true ↔ key ∈ keys m := by
  rw [contains, Option.isSome_iff_ne_none, ne_eq, get?_eq_none_iff, Decidable.not_not]

theorem get?_modify_of_ne (m : Assoc α) {key other : String} (h : key ≠ other) (f : α → α) :
    get? (modify m key f) other = get? m other := by
  unfold modify
  split
  · rfl
  · rw [get?_insert, if_neg h]

theorem get?_modify_self (m : Assoc α) (key : String) (f : α → α) :
    get? (modify m key f) key = (get? m key).map f := by
  unfold modify
  split
  next h => rw [h, Option.map_none]
  next v h => rw [get?_insert, if_pos rfl, h, Option.map_some]

end Assoc

end ObjectGraph
