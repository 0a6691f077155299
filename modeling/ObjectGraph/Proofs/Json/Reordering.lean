import ObjectGraph.Json.Value

/-!
# Members in another order

`Value.Reordered` is the relation of values that differ at most in the order in which objects,
at any depth, have their members.  Where an object has one member for each key, whatever looks
a member up finds values that are related again (`Reordered.found`).
-/

namespace ObjectGraph.Json.Value

mutual

/-- The values are the same but for the order of the members of objects at any depth. -/
inductive Reordered : Value → Value → Prop
  | same (v : Value) : Reordered v v
  | arr {vs ws : List Value} (items : ReorderedItems vs ws) : Reordered (.arr vs) (.arr ws)
  | obj {members middle others : List (String × Value)}
      (values : ReorderedMembers members middle) (order : middle.Perm others) :
      Reordered (.obj members) (.obj others)

/-- Item by item the values are the same but for the order of members. -/
inductive ReorderedItems : List Value → List Value → Prop
  | nil : ReorderedItems [] []
  | cons {v w : Value} {vs ws : List Value} (item : Reordered v w)
      (rest : ReorderedItems vs ws) : ReorderedItems (v :: vs) (w :: ws)

/-- Key by key the values are the same but for the order of members. -/
inductive ReorderedMembers : List (String × Value) → List (String × Value) → Prop
  | nil : ReorderedMembers [] []
  | cons {key : String} {v w : Value} {members others : List (String × Value)}
      (value : Reordered v w) (rest : ReorderedMembers members others) :
      ReorderedMembers ((key, v) :: members) ((key, w) :: others)

end

mutual

/-- The keys of each object within a value. -/
def keysWithin : Value → List (List String)
  | .obj members => Assoc.keys members :: memberKeysWithin members
  | .arr items => itemKeysWithin items
  | .null | .bool _ | .num _ | .str _ => []

def itemKeysWithin : List Value → List (List String)
  | [] => []
  | v :: rest => v.keysWithin ++ itemKeysWithin rest

def memberKeysWithin : List (String × Value) → List (List String)
  | [] => []
  | (_, v) :: rest => v.keysWithin ++ memberKeysWithin rest

end

variable {v w : Value} {members others : Object}

/-- The keys within members are those within one of their values. -/
theorem mem_memberKeysWithin {keys : List String} :
    keys ∈ memberKeysWithin members ↔ ∃ member ∈ members, keys ∈ member.2.keysWithin := by
  induction members with
  | nil => simp [memberKeysWithin]
  | cons member rest ih => simp [memberKeysWithin, ih]

/-- The keys within a member's value are within the object. -/
theorem keysWithin_subset {key : String} (h : (key, v) ∈ members) :
    v.keysWithin ⊆ (Value.obj members).keysWithin := by
  intro keys hkeys
  rw [keysWithin]
  exact List.mem_cons_of_mem _ (mem_memberKeysWithin.mpr ⟨(key, v), h, hkeys⟩)

/-- Members are reordered to themselves. -/
theorem ReorderedMembers.refl (members : Object) : ReorderedMembers members members := by
  induction members with
  | nil => exact .nil
  | cons member rest ih => exact .cons (.same member.2) ih

/-- The same members in another order. -/
theorem Reordered.of_perm (h : members.Perm others) : Reordered (.obj members) (.obj others) :=
  .obj (.refl members) h

/-- Reordering within members leaves their keys in place. -/
theorem ReorderedMembers.keys_eq : ∀ {members others : Object},
    ReorderedMembers members others → members.keys = others.keys
  | _, _, .nil => rfl
  | _, _, .cons _ rest => congrArg (_ :: ·) rest.keys_eq

/-- Under each key reordered members have reordered values, or none. -/
theorem ReorderedMembers.found (h : ReorderedMembers members others) (key : String) :
    Option.Rel Reordered (members.get? key) (others.get? key) := by
  induction members generalizing others with
  | nil =>
      cases h
      exact .none
  | cons member members ih =>
      cases h with
      | @cons k v w _ others value rest =>
          unfold Assoc.get?
          by_cases hkey : k = key
          · rw [if_pos hkey, if_pos hkey]
            exact .some value
          · rw [if_neg hkey, if_neg hkey]
            exact ih rest

/-- Reordered objects have the same keys. -/
theorem Reordered.keys_perm (h : Reordered (.obj members) (.obj others)) :
    members.keys.Perm others.keys := by
  cases h with
  | same => exact .refl _
  | obj values order => exact values.keys_eq ▸ order.map Prod.fst

mutual

/-- The objects within reordered values have the same keys. -/
theorem Reordered.keysWithin_perm : ∀ {v w : Value}, Reordered v w → ∀ keys ∈ w.keysWithin,
    ∃ keys' ∈ v.keysWithin, keys'.Perm keys
  | _, _, .same _, keys, hkeys => ⟨keys, hkeys, .refl _⟩
  | _, _, .arr items, keys, hkeys => by
      rw [keysWithin] at hkeys ⊢
      exact items.keysWithin_perm keys hkeys
  | .obj members, .obj others, .obj values order, keys, hkeys => by
      rw [keysWithin] at hkeys ⊢
      rcases List.mem_cons.mp hkeys with rfl | hkeys
      · exact ⟨_, List.mem_cons_self, (Reordered.obj values order).keys_perm⟩
      · obtain ⟨member, hmember, hkeys⟩ := mem_memberKeysWithin.mp hkeys
        obtain ⟨keys', hkeys', hperm⟩ := values.keysWithin_perm keys
          (mem_memberKeysWithin.mpr ⟨member, order.mem_iff.mpr hmember, hkeys⟩)
        exact ⟨keys', List.mem_cons_of_mem _ hkeys', hperm⟩

/-- Reordered items have the same keys within them, in some order. -/
theorem ReorderedItems.keysWithin_perm : ∀ {vs ws : List Value}, ReorderedItems vs ws →
    ∀ keys ∈ itemKeysWithin ws, ∃ keys' ∈ itemKeysWithin vs, keys'.Perm keys
  | _, _, .nil, _, hkeys => by
      rw [itemKeysWithin] at hkeys
      cases hkeys
  | _, _, .cons item rest, keys, hkeys => by
      rw [itemKeysWithin] at hkeys ⊢
      rcases List.mem_append.mp hkeys with hkeys | hkeys
      · obtain ⟨keys', hkeys', hperm⟩ := item.keysWithin_perm keys hkeys
        exact ⟨keys', List.mem_append_left _ hkeys', hperm⟩
      · obtain ⟨keys', hkeys', hperm⟩ := rest.keysWithin_perm keys hkeys
        exact ⟨keys', List.mem_append_right _ hkeys', hperm⟩

/-- Reordered members have the same keys within them, in some order. -/
theorem ReorderedMembers.keysWithin_perm : ∀ {members others : Object},
    ReorderedMembers members others →
    ∀ keys ∈ memberKeysWithin others, ∃ keys' ∈ memberKeysWithin members, keys'.Perm keys
  | _, _, .nil, _, hkeys => by
      rw [memberKeysWithin] at hkeys
      cases hkeys
  | _, _, .cons value rest, keys, hkeys => by
      rw [memberKeysWithin] at hkeys ⊢
      rcases List.mem_append.mp hkeys with hkeys | hkeys
      · obtain ⟨keys', hkeys', hperm⟩ := value.keysWithin_perm keys hkeys
        exact ⟨keys', List.mem_append_left _ hkeys', hperm⟩
      · obtain ⟨keys', hkeys', hperm⟩ := rest.keysWithin_perm keys hkeys
        exact ⟨keys', List.mem_append_right _ hkeys', hperm⟩

end

/-- **Under each key** reordered objects have reordered values, if they have one for each. -/
theorem Reordered.found (h : Reordered (.obj members) (.obj others)) (hkeys : members.keys.Nodup)
    (key : String) : Option.Rel Reordered (members.get? key) (others.get? key) := by
  have hothers := h.keys_perm.nodup_iff.mp hkeys
  cases h with
  | same =>
      cases members.get? key with
      | none => exact .none
      | some v => exact .some (.same v)
  | obj values order =>
      rw [← Assoc.get?_perm order hothers]
      exact values.found key

/-- Reordered values are the same texts. -/
theorem Reordered.asText?_eq (h : Reordered v w) : v.asText? = w.asText? := by
  cases h <;> rfl

/-- Null has one order. -/
theorem Reordered.eq_null_iff (h : Reordered v w) : v = .null ↔ w = .null := by
  cases h with
  | same => exact Iff.rfl
  | arr | obj => exact ⟨nofun, nofun⟩

/-- The texts among reordered items are the same. -/
theorem ReorderedItems.texts_eq : ∀ {vs ws : List Value}, ReorderedItems vs ws →
    vs.filterMap asText? = ws.filterMap asText?
  | _, _, .nil => rfl
  | _, _, .cons item rest => by
      rw [List.filterMap_cons, List.filterMap_cons, item.asText?_eq, rest.texts_eq]

end ObjectGraph.Json.Value
