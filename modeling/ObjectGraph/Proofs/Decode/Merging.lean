import ObjectGraph.Compile.Select
import ObjectGraph.Proofs.Decode.Identity
import ObjectGraph.Proofs.Json.Equality

/-!
# Merging the objects of a row

The objects of the entities of a row become one.  A value goes under its key, or under
the key with the number of its entity where another value is in the way; the types of all
entities are collected under one key.

Nothing is lost as long as no two values rival for a place: where the key of a value may
be taken, the key with the number is free (`Uncontested`).  Then what once stands in the
merged object stays there and every value finds a place, one step after the other
(`Merges`), and so through the whole row (`merge_keeps`).  A key that looks like one with
a number is where this fails (`alias_written_over`).
-/

namespace ObjectGraph.Decode

open Json (Value Object)

/-! ## Places -/

/-- A value that is merged: the number of its entity, its key and itself. -/
structure Entry where
  number : Nat
  key : String
  value : Value

namespace Entry

/-- The key with the number of the entity behind it. -/
def numbered (e : Entry) : String :=
  e.key ++ toString e.number

/-- A value stands under its key or, if it is not one of the root, under the key with the
number. -/
def MayStandAt (e : Entry) (key : String) : Prop :=
  e.key = key ∨ 0 < e.number ∧ e.numbered = key

/-- There is a place for a value: no other value is in the way under its key, or none
under the key with the number. -/
def Fits (e : Entry) (before : List Entry) : Prop :=
  (∀ d ∈ before, d.MayStandAt e.key → d.value.same e.value = true) ∨
    ∀ d ∈ before, d.MayStandAt e.numbered → d.value = e.value

/-- An object has the value, or one that is equal to it, at one of its places. -/
def StandsIn (e : Entry) (m : Object) : Prop :=
  ∃ key w, e.MayStandAt key ∧ Assoc.get? m key = some w ∧ (w = e.value ∨ w.same e.value = true)

instance (e : Entry) (key : String) : Decidable (e.MayStandAt key) :=
  inferInstanceAs (Decidable (_ ∨ _))

instance (e : Entry) (before : List Entry) : Decidable (e.Fits before) :=
  inferInstanceAs (Decidable (_ ∨ _))

/-- A key with a number behind it is not `@type`. -/
theorem numbered_ne_type (e : Entry) : e.numbered ≠ "@type" :=
  append_toString_ne e.key e.number (c := 'e') rfl rfl

/-- Only a type may stand at `@type`. -/
theorem MayStandAt.ne_type {e : Entry} {key : String} (h : e.MayStandAt key)
    (hkey : e.key ≠ "@type") : key ≠ "@type" := by
  rcases h with rfl | ⟨_, rfl⟩
  · exact hkey
  · exact e.numbered_ne_type

end Entry

/-- The values of an object but for its types. -/
def entriesOf (number : Nat) (object : Object) : List Entry :=
  (object.filter (·.1 != "@type")).map fun e => ⟨number, e.1, e.2⟩

/-- The values of objects that are numbered from the given number on, in the order in
which they are merged. -/
def entriesFrom (number : Nat) : List Object → List Entry
  | [] => []
  | object :: rest => entriesOf number object ++ entriesFrom (number + 1) rest

/-- Types are not merged like other values. -/
theorem entriesOf_cons_type (number : Nat) (v : Value) (rest : Object) :
    entriesOf number (("@type", v) :: rest) = entriesOf number rest := by
  simp [entriesOf]

theorem entriesOf_cons {key : String} (h : key ≠ "@type") (number : Nat) (v : Value)
    (rest : Object) :
    entriesOf number ((key, v) :: rest) = ⟨number, key, v⟩ :: entriesOf number rest := by
  simp [entriesOf, h]

/-- The values of an object have its number, and none of them is a type. -/
theorem mem_entriesOf {number : Nat} {object : Object} {e : Entry}
    (h : e ∈ entriesOf number object) : e.number = number ∧ e.key ≠ "@type" := by
  obtain ⟨d, hd, rfl⟩ := List.mem_map.mp h
  exact ⟨rfl, by simpa using (List.mem_filter.mp hd).2⟩

/-- What an object has under a key other than `@type` is one of its values. -/
theorem mem_entriesOf_of_get? {object : Object} {key : String} {v : Value}
    (h : Assoc.get? object key = some v) (hkey : key ≠ "@type") (number : Nat) :
    ⟨number, key, v⟩ ∈ entriesOf number object :=
  List.mem_map.mpr ⟨(key, v), List.mem_filter.mpr ⟨Assoc.mem_of_get? h, by simpa using hkey⟩, rfl⟩

/-- The values of the objects in a list are those of each, by their numbers. -/
theorem mem_entriesFrom {rest : List Object} {i : Nat} {object : Object}
    (hobject : rest[i]? = some object) {number : Nat} {e : Entry}
    (he : e ∈ entriesOf (number + i) object) : e ∈ entriesFrom number rest := by
  induction rest generalizing i number with
  | nil => cases hobject
  | cons o rest ih =>
      cases i with
      | zero =>
          obtain rfl := Option.some.inj hobject
          exact List.mem_append_left _ he
      | succ i =>
          refine List.mem_append_right _ (ih hobject ?_)
          rwa [show number + 1 + i = number + (i + 1) by omega]

/-- Each of the values finds a place behind those in front of it. -/
def Placed (before : List Entry) : List Entry → Prop
  | [] => True
  | e :: rest => e.Fits before ∧ Placed (before ++ [e]) rest

/-- Values find their places one after the other. -/
theorem placed_append {before entries later : List Entry} :
    Placed before (entries ++ later) ↔
      Placed before entries ∧ Placed (before ++ entries) later := by
  induction entries generalizing before with
  | nil => simp [Placed]
  | cons e rest ih => simp [Placed, ih, and_assoc]

instance decidablePlaced : (before entries : List Entry) → Decidable (Placed before entries)
  | _, [] => .isTrue trivial
  | before, e :: rest =>
    have := decidablePlaced (before ++ [e]) rest
    inferInstanceAs (Decidable (_ ∧ _))

/-- No value of an entity behind the root has a rival for its place. -/
def Uncontested : List Object → Prop
  | [] => True
  | root :: rest => Placed (entriesOf 0 root) (entriesFrom 1 rest)

instance : (objects : List Object) → Decidable (Uncontested objects)
  | [] => .isTrue trivial
  | _ :: _ => decidablePlaced _ _

/-! ## Steps -/

/-- All that an object holds are values that may stand where they do. -/
def Sourced (before : List Entry) (m : Object) : Prop :=
  ∀ key w, key ≠ "@type" → Assoc.get? m key = some w →
    ∃ d ∈ before, d.MayStandAt key ∧ d.value = w

/-- What an object holds is in another one at the same place. -/
def Stays (m m' : Object) : Prop :=
  ∀ key w, key ≠ "@type" → Assoc.get? m key = some w → Assoc.get? m' key = some w

/-- A value stands in whatever keeps what it stands in. -/
theorem Entry.StandsIn.stays {e : Entry} {m m' : Object} (h : e.StandsIn m)
    (hkey : e.key ≠ "@type") (hstays : Stays m m') : e.StandsIn m' := by
  obtain ⟨key, w, hplace, hw, hv⟩ := h
  exact ⟨key, w, hplace, hstays key w (hplace.ne_type hkey) hw, hv⟩

/-- Merging some values behind others keeps what is there and finds a place for each. -/
structure Merges (before : List Entry) (m : Object) (entries : List Entry) (m' : Object) :
    Prop where
  sourced : Sourced (before ++ entries) m'
  stays : Stays m m'
  stand : ∀ e ∈ entries, e.StandsIn m'

namespace Merges

variable {before entries later : List Entry} {m m' m'' : Object}

theorem refl (h : Sourced before m) : Merges before m [] m :=
  ⟨by rwa [List.append_nil], fun _ _ _ h => h, by simp⟩

/-- Merging goes on behind what was merged. -/
theorem trans (h : Merges before m entries m') (h' : Merges (before ++ entries) m' later m'')
    (hkeys : ∀ e ∈ entries, e.key ≠ "@type") : Merges before m (entries ++ later) m'' where
  sourced := by
    rw [← List.append_assoc]
    exact h'.sourced
  stays key w hkey hw := h'.stays key w hkey (h.stays key w hkey hw)
  stand e he := by
    rcases List.mem_append.mp he with he | he
    · exact (h.stand e he).stays (hkeys e he) h'.stays
    · exact h'.stand e he

/-- Types are merged apart from all else. -/
theorem mergeType (h : Sourced before m) (v : Value) : Merges before m [] (mergeType m v) := by
  have hget : ∀ key, key ≠ "@type" → Assoc.get? (Decode.mergeType m v) key = Assoc.get? m key := by
    intro key hkey
    unfold Decode.mergeType
    dsimp only
    split <;> rw [Assoc.get?_insert, if_neg (Ne.symm hkey)]
  refine ⟨?_, fun key w hkey hw => by rw [hget key hkey, hw], by simp⟩
  intro key w hkey hw
  rw [List.append_nil]
  exact h key w hkey (hget key hkey ▸ hw)

/-- A value is entered at a place where no other value stands. -/
theorem insert (h : Sourced before m) {e : Entry} {key : String} (hplace : e.MayStandAt key)
    (hfree : ∀ w, Assoc.get? m key = some w → w = e.value) :
    Merges before m [e] (Assoc.insert m key e.value) := by
  have hget := Assoc.get?_insert m key
  refine ⟨?_, ?_, ?_⟩
  · intro k w hk hw
    rw [hget] at hw
    split at hw
    next heq =>
      subst heq
      exact ⟨e, by simp, hplace, Option.some.inj hw⟩
    next =>
      obtain ⟨d, hd, hdw⟩ := h k w hk hw
      exact ⟨d, List.mem_append_left _ hd, hdw⟩
  · intro k w _ hw
    rw [hget]
    split
    next heq =>
      subst heq
      rw [hfree w hw]
    next => exact hw
  · rw [List.forall_mem_singleton]
    exact ⟨key, e.value, hplace, by rw [hget, if_pos rfl], .inl rfl⟩

/-- **One step.**  A value for which there is a place is merged. -/
theorem mergeKey (h : Sourced before m) {e : Entry} (hnumber : 0 < e.number)
    (hkey : e.key ≠ "@type") (hfits : e.Fits before) :
    Merges before m [e] (mergeKey e.number m (e.key, e.value)) := by
  unfold Decode.mergeKey
  dsimp only
  rw [if_neg hkey]
  cases hw : Assoc.get? m e.key with
  | none =>
      refine insert h (.inl rfl) fun w hfound => ?_
      rw [hw] at hfound
      cases hfound
  | some w =>
      dsimp only
      obtain ⟨d, hd, hplace, rfl⟩ := h e.key w hkey hw
      split
      next hsame =>
        refine ⟨fun k v hk hv => ?_, fun _ _ _ hv => hv, ?_⟩
        · obtain ⟨c, hc, hcv⟩ := h k v hk hv
          exact ⟨c, List.mem_append_left _ hc, hcv⟩
        · rw [List.forall_mem_singleton]
          exact ⟨e.key, d.value, .inl rfl, hw, .inr hsame⟩
      next hother =>
        -- the key is taken by another value, so none is under the key with the number
        refine insert h (.inr ⟨hnumber, rfl⟩) fun v hfound => ?_
        obtain ⟨c, hc, hplace', rfl⟩ := h e.numbered v e.numbered_ne_type hfound
        rcases hfits with hfits | hfits
        · exact (hother (hfits d hd hplace)).elim
        · exact hfits c hc hplace'

/-- All values of an object are merged. -/
theorem foldl_mergeKey {number : Nat} (hnumber : 0 < number) {object : Object}
    (h : Sourced before m) (hplaced : Placed before (entriesOf number object)) :
    Merges before m (entriesOf number object) (object.foldl (Decode.mergeKey number) m) := by
  induction object generalizing before m with
  | nil => exact refl h
  | cons entry rest ih =>
      obtain ⟨key, v⟩ := entry
      rw [List.foldl_cons]
      by_cases hkey : key = "@type"
      · subst hkey
        rw [entriesOf_cons_type] at hplaced ⊢
        have hfirst : Merges before m [] (Decode.mergeKey number m ("@type", v)) := mergeType h v
        have hsourced := hfirst.sourced
        rw [List.append_nil] at hsourced
        exact hfirst.trans (by rw [List.append_nil]; exact ih hsourced hplaced) (by simp)
      · rw [entriesOf_cons hkey] at hplaced ⊢
        have hfirst := mergeKey (e := ⟨number, key, v⟩) h hnumber hkey hplaced.1
        exact hfirst.trans (ih hfirst.sourced hplaced.2) (by simpa using hkey)

/-- **The whole run.**  All values of all objects are merged. -/
theorem mergeFrom {number : Nat} (hnumber : 0 < number) {rest : List Object}
    (h : Sourced before m) (hplaced : Placed before (entriesFrom number rest)) :
    Merges before m (entriesFrom number rest) (mergeFrom m number rest) := by
  induction rest generalizing before m number with
  | nil => exact refl h
  | cons object rest ih =>
      obtain ⟨hobject, hrest⟩ := placed_append.mp hplaced
      have hfirst := foldl_mergeKey hnumber h hobject
      exact hfirst.trans (ih (Nat.succ_pos number) hfirst.sourced hrest)
        fun e he => (mem_entriesOf he).2

end Merges

/-- The values of the root are where they may be. -/
theorem sourced_root (root : Object) : Sourced (entriesOf 0 root) root := by
  intro key w hkey hw
  exact ⟨_, mem_entriesOf_of_get? hw hkey 0, .inl rfl, rfl⟩

/-! ## Types -/

/-- The types of objects, as each of them has them. -/
def typeValues (objects : List Object) : List Value :=
  objects.filterMap (Assoc.get? · "@type")

/-- The types of objects as one value: those of each in turn, every one once. -/
def unitedTypes (objects : List Object) : Option Value :=
  match typeValues objects with
  | [] => none
  | vs => some (.ofItems ((vs.flatMap Value.itemsOrSelf).eraseDupsBy fun v w => w.same v))

/-- The types that come first are listed once, a single one as itself, and no type is a
list. -/
structure TypesListed (objects : List Object) : Prop where
  once : ∀ v ∈ (typeValues objects).head?,
    v = .ofItems (v.itemsOrSelf.eraseDupsBy fun v w => w.same v)
  flat : ∀ v ∈ typeValues objects, ∀ t ∈ v.itemsOrSelf, t.itemsOrSelf = [t]

/-- Each object has one type, which is a text, or none. -/
theorem typesListed_of_texts {objects : List Object}
    (h : ∀ v ∈ typeValues objects, ∃ s, v = .str s) : TypesListed objects where
  once v hv := by
    obtain ⟨s, rfl⟩ := h v (List.mem_of_mem_head? hv)
    rfl
  flat v hv := by
    obtain ⟨s, rfl⟩ := h v hv
    simp [Value.itemsOrSelf]

/-- The types of an object after more have come. -/
def gatherTypes (types : Option Value) (v : Value) : Option Value :=
  match types with
  | none => some (.ofItems v.itemsOrSelf)
  | some existing => some (.ofItems (v.itemsOrSelf.foldl Value.addNew existing.itemsOrSelf))

/-- Types are gathered under `@type`, and all other values leave it alone. -/
theorem get?_mergeKey_type (number : Nat) (m : Object) (key : String) (v : Value) :
    Assoc.get? (mergeKey number m (key, v)) "@type" =
      if key = "@type" then gatherTypes (Assoc.get? m "@type") v else Assoc.get? m "@type" := by
  unfold mergeKey
  dsimp only
  split
  next =>
    unfold mergeType
    cases Assoc.get? m "@type" <;> exact (Assoc.get?_insert ..).trans (if_pos rfl)
  next hkey =>
    split
    next => rw [Assoc.get?_insert, if_neg hkey]
    next =>
      split
      next => rfl
      next =>
        rw [Assoc.get?_insert]
        exact if_neg (Entry.numbered_ne_type ⟨number, key, v⟩)

/-- The types of an object are gathered when it is merged. -/
theorem get?_foldl_mergeKey_type (number : Nat) {object : Object} (hkeys : object.keys.Nodup)
    (m : Object) :
    Assoc.get? (object.foldl (mergeKey number) m) "@type" =
      match Assoc.get? object "@type" with
      | none => Assoc.get? m "@type"
      | some v => gatherTypes (Assoc.get? m "@type") v := by
  induction object generalizing m with
  | nil => rfl
  | cons entry rest ih =>
      obtain ⟨key, v⟩ := entry
      obtain ⟨hnew, hrest⟩ := List.nodup_cons.mp hkeys
      rw [List.foldl_cons, ih hrest, get?_mergeKey_type]
      by_cases hkey : key = "@type"
      · subst hkey
        have hnone : Assoc.get? rest "@type" = none := Assoc.get?_eq_none_iff.mpr hnew
        simp [Assoc.get?, hnone]
      · simp [Assoc.get?, hkey]

/-- The types of all objects are gathered one after the other. -/
theorem get?_mergeFrom_type (m : Object) (number : Nat) {rest : List Object}
    (hkeys : ∀ o ∈ rest, o.keys.Nodup) :
    Assoc.get? (mergeFrom m number rest) "@type" =
      (typeValues rest).foldl gatherTypes (Assoc.get? m "@type") := by
  induction rest generalizing m number with
  | nil => rfl
  | cons object rest ih =>
      rw [List.forall_mem_cons] at hkeys
      rw [mergeFrom, ih _ _ hkeys.2, get?_foldl_mergeKey_type number hkeys.1, typeValues,
        typeValues, List.filterMap_cons]
      cases Assoc.get? object "@type" <;> rfl

/-- A list of types that are no lists has them as its items. -/
theorem itemsOrSelf_ofItems {ts : List Value} (h : ∀ t ∈ ts, t.itemsOrSelf = [t]) :
    (Value.ofItems ts).itemsOrSelf = ts := by
  match ts with
  | [] | _ :: _ :: _ => rfl
  | [t] => exact h t (List.mem_singleton_self t)

/-- No type is made up. -/
theorem mem_foldl_addNew {vs ts : List Value} {t : Value} (h : t ∈ vs.foldl Value.addNew ts) :
    t ∈ ts ∨ t ∈ vs := by
  induction vs generalizing ts with
  | nil => exact .inl h
  | cons v rest ih =>
      rcases ih h with h | h
      · unfold Value.addNew at h
        split at h
        · exact .inl h
        · rcases List.mem_append.mp h with h | h
          · exact .inl h
          · exact .inr (List.mem_cons.mpr (.inl (List.mem_singleton.mp h)))
      · exact .inr (List.mem_cons_of_mem _ h)

/-- Gathering lists adds the new ones of their items. -/
theorem foldl_gatherTypes {vs ts : List Value} (hts : ∀ t ∈ ts, t.itemsOrSelf = [t])
    (hvs : ∀ v ∈ vs, ∀ t ∈ v.itemsOrSelf, t.itemsOrSelf = [t]) :
    vs.foldl gatherTypes (some (.ofItems ts)) =
      some (.ofItems ((vs.flatMap Value.itemsOrSelf).foldl Value.addNew ts)) := by
  induction vs generalizing ts with
  | nil => rfl
  | cons v rest ih =>
      rw [List.forall_mem_cons] at hvs
      rw [List.foldl_cons, gatherTypes, itemsOrSelf_ofItems hts, List.flatMap_cons,
        List.foldl_append]
      refine ih (fun t ht => ?_) hvs.2
      rcases mem_foldl_addNew ht with ht | ht
      · exact hts t ht
      · exact hvs.1 t ht

/-- Listed types of merged objects are united. -/
theorem get?_merge_type {objects : List Object} (hkeys : ∀ o ∈ objects, o.keys.Nodup)
    (htypes : TypesListed objects) :
    Assoc.get? (merge objects) "@type" = unitedTypes objects := by
  cases objects with
  | nil => rfl
  | cons root rest =>
      rw [merge, get?_mergeFrom_type _ _ fun o ho => hkeys o (List.mem_cons_of_mem _ ho)]
      obtain ⟨honce, hflat⟩ := htypes
      -- from the first types on, what is gathered is a list of which each item is new
      have hgather : ∀ v vs, typeValues (root :: rest) = v :: vs →
          vs.foldl gatherTypes (some v) = unitedTypes (root :: rest) ∧
            gatherTypes none v = some v := by
        intro v vs hvs
        rw [hvs, List.forall_mem_cons] at hflat
        have hv : v = .ofItems (v.itemsOrSelf.foldl Value.addNew []) := by
          rw [Value.foldl_addNew]
          exact honce v (by rw [hvs]; rfl)
        have hlist : v.itemsOrSelf.foldl Value.addNew [] = v.itemsOrSelf := by
          have hitems : ∀ t ∈ v.itemsOrSelf.foldl Value.addNew [], t.itemsOrSelf = [t] :=
            fun t ht => hflat.1 t ((mem_foldl_addNew ht).resolve_left List.not_mem_nil)
          conv_rhs => rw [hv]
          exact (itemsOrSelf_ofItems hitems).symm
        rw [hlist] at hv
        refine ⟨?_, by rw [gatherTypes, ← hv]⟩
        have hunited : unitedTypes (root :: rest) =
            some (.ofItems (((v :: vs).flatMap Value.itemsOrSelf).foldl Value.addNew [])) := by
          rw [Value.foldl_addNew, unitedTypes, hvs]
        rw [hunited, List.flatMap_cons, List.foldl_append, hlist,
          ← foldl_gatherTypes hflat.1 hflat.2, ← hv]
      have hcons : typeValues (root :: rest) =
          (Assoc.get? root "@type").toList ++ typeValues rest := by
        rw [typeValues, List.filterMap_cons]
        cases Assoc.get? root "@type" <;> rfl
      cases hroot : Assoc.get? root "@type" with
      | some v => exact (hgather v _ (by rw [hcons, hroot]; rfl)).1
      | none =>
          rw [hroot] at hcons
          cases hrest : typeValues rest with
          | nil =>
              rw [hrest] at hcons
              rw [unitedTypes, hcons]
              rfl
          | cons v vs =>
              obtain ⟨hfold, hfirst⟩ := hgather v vs (hcons.trans hrest)
              rw [List.foldl_cons, hfirst, hfold]

/-! ## Rows -/

/-- Values are numbered on from list to list. -/
theorem entriesFrom_append (number : Nat) (front back : List Object) :
    entriesFrom number (front ++ back) =
      entriesFrom number front ++ entriesFrom (number + front.length) back := by
  induction front generalizing number with
  | nil => rfl
  | cons object rest ih =>
      have hlength : number + 1 + rest.length = number + (rest.length + 1) := by omega
      simp [entriesFrom, ih, hlength]

/-- Objects are merged on from list to list. -/
theorem mergeFrom_append (m : Object) (number : Nat) (front back : List Object) :
    mergeFrom m number (front ++ back) =
      mergeFrom (mergeFrom m number front) (number + front.length) back := by
  induction front generalizing m number with
  | nil => rfl
  | cons object rest ih =>
      have hlength : number + 1 + rest.length = number + (rest.length + 1) := by omega
      simp [mergeFrom, ih, hlength]

/-- What the first objects come to stays when the others are merged. -/
theorem merge_stays {objects : List Object} (hplaces : Uncontested objects) (n : Nat) :
    Stays (merge (objects.take n)) (merge objects) := by
  match n, objects with
  | 0, _ | _, [] => intro key w _ hw; simp [merge, Assoc.get?] at hw
  | n + 1, root :: rest =>
      have hrest := hplaces
      rw [Uncontested, ← List.take_append_drop n rest, entriesFrom_append] at hrest
      obtain ⟨hfront, hback⟩ := placed_append.mp hrest
      have hfirst := Merges.mergeFrom Nat.one_pos (sourced_root root) hfront
      have hsecond := Merges.mergeFrom (by omega) hfirst.sourced hback
      rw [List.take_succ_cons, merge, merge]
      conv => arg 2; rw [← List.take_append_drop n rest, mergeFrom_append]
      exact hsecond.stays

/-- **Merging keeps everything.**  Where no value has a rival, all that the first
entities come to stays, first of all the root itself; every value of every entity stands
under its key or under the key with the number; and the types are those of all entities,
each once in the order in which they come. -/
theorem merge_keeps {objects : List Object} (hkeys : ∀ o ∈ objects, o.keys.Nodup)
    (hplaces : Uncontested objects) (htypes : TypesListed objects) :
    (∀ root ∈ objects.head?, Stays root (merge objects)) ∧
      (∀ n, Stays (merge (objects.take n)) (merge objects)) ∧
      (∀ i o key v, objects[i]? = some o → key ≠ "@type" → Assoc.get? o key = some v →
        Entry.StandsIn ⟨i, key, v⟩ (merge objects)) ∧
      Assoc.get? (merge objects) "@type" = unitedTypes objects := by
  have hroot : ∀ root ∈ objects.head?, Stays root (merge objects) := by
    intro root hroot
    obtain ⟨rest, rfl⟩ := List.head?_eq_some_iff.mp hroot
    exact merge_stays hplaces 1
  refine ⟨hroot, merge_stays hplaces, ?_, get?_merge_type hkeys htypes⟩
  intro i o key v ho hkey hv
  match i, objects with
  | 0, root :: rest =>
      obtain rfl := Option.some.inj ho
      exact ⟨key, v, .inl rfl, hroot root rfl key v hkey hv, .inl rfl⟩
  | i + 1, root :: rest =>
      have hmerges := Merges.mergeFrom Nat.one_pos (sourced_root root) hplaces
      refine hmerges.stand _ (mem_entriesFrom (i := i) ho ?_)
      rw [Nat.add_comm]
      exact mem_entriesOf_of_get? hv hkey (i + 1)

/-- A name that comes a second time gets a number, one that is the same does not, and the
types are collected. -/
theorem merge_keeps_renamed :
    let root : Object := [("@id", .str "ex:a"), ("@type", .str "ex:A"), ("name", .str "x")]
    let objects : List Object :=
      [root, [("@type", .str "ex:B"), ("name", .str "y"), ("label", .str "l")],
        [("@type", .str "ex:A"), ("name", .str "x")]]
    (∀ o ∈ objects, o.keys.Nodup) ∧ Uncontested objects ∧ TypesListed objects ∧
      Stays root (merge objects) ∧ Entry.StandsIn ⟨1, "name", .str "y"⟩ (merge objects) ∧
      Assoc.get? (merge objects) "name1" = some (.str "y") ∧
      Assoc.get? (merge objects) "@type" = some (.arr [.str "ex:A", .str "ex:B"]) := by
  intro root objects
  have hkeys : ∀ o ∈ objects, o.keys.Nodup := by decide
  have hplaces : Uncontested objects := by decide +kernel
  have htypes : TypesListed objects :=
    typesListed_of_texts (by simp [objects, root, typeValues, Assoc.get?])
  obtain ⟨hroot, -, hstand, htype⟩ := merge_keeps hkeys hplaces htypes
  exact ⟨hkeys, hplaces, htypes, hroot root rfl, hstand 1 _ "name" _ rfl (by decide) rfl, rfl,
    htype.trans rfl⟩

/-- A thing with a name, and a part that has an alias beside its name. -/
def aliasedThings : Collection where
  entities :=
    [{ index := 0
       schema :=
         { targetClass := some "ex:Thing"
           context := [("name", .str "ex:name")]
           properties := [("name", {})] }
       selection := some ["name"] },
     { index := 1
       schema :=
         { targetClass := some "ex:Part"
           context := [("name", .str "ex:name"), ("name1", .str "ex:alias")]
           properties := [("name1", {}), ("name", {})] }
       selection := some ["name1", "name"] }]

/-- The key of the alias is that of the name with the number of the part.  The name takes
its place, and the alias is gone. -/
theorem alias_written_over :
    ∃ plan ∈ (aliasedThings.compileSelect .exampleOrg {}).toOption,
      let row : Row :=
        [("name0", .literal "x"), ("name11", .literal "z"), ("name1", .literal "y")]
      let thing : Object := [("name", .str "x")]
      let part : Object := [("name1", .str "z"), ("name", .str "y")]
      plan.parts.map (entityObject .exampleOrg row) = [thing, part] ∧
        solutions .exampleOrg plan.parts [row] = [[("name", .str "x"), ("name1", .str "y")]] ∧
        ¬ Entry.StandsIn ⟨1, "name1", .str "z"⟩ (merge [thing, part]) := by
  refine ⟨_, rfl, ?_, ?_, ?_⟩
  · decide +kernel
  · decide +kernel
  · rintro ⟨key, w, hplace, hw, hz⟩
    rcases hplace with rfl | ⟨_, rfl⟩
    · obtain rfl : Value.str "y" = w := Option.some.inj hw
      exact absurd hz (by decide)
    · cases hw

end ObjectGraph.Decode
