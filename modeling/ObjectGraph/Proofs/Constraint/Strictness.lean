import ObjectGraph.Proofs.Constraint.KnownKeys

/-!
# Strict mode

Strict mode is one more error.  It refuses a request exactly if, outside of strict mode, the
request is accepted and loses a key that no schema of the collection knows; every other
request is built alike in both modes (`Collection.build_strict`).  The error names the first
key that is lost, the conditions of an entity coming before its data, if no computed key is
lost: those go together with data, and strict mode names the data.
-/

namespace ObjectGraph

open Json (Value Object)

/-! ## Lost keys -/

/-- The keys of conditions, then of data, that an entity has lost of its request. -/
def EntityRequest.lostKeys (r : EntityRequest) (e : Entity) : List String :=
  r.conditions.keys.filter (!e.conditions.contains ·) ++
    r.data.keys.filter (!e.data.contains ·)

namespace CollectionRequest

/-- The requests for entities with their places, beside the entities of a collection. -/
def pairs (request : CollectionRequest) (c : Collection) :
    List ((EntityRequest × Nat) × Entity) :=
  request.entities.zipIdx.zip c.entities

/-- All that a collection has lost of its request, with the places of the entities. -/
def lost (request : CollectionRequest) (c : Collection) : List (Nat × String) :=
  (request.pairs c).flatMap fun p => (p.1.1.lostKeys p.2).map fun key => (p.1.2, key)

/-- Data under a computed key is data that the schema of its entity knows. -/
def Clear (request : CollectionRequest) (c : Collection) : Prop :=
  ∀ p ∈ request.pairs c, p.1.1.Clear p.2.schema

end CollectionRequest

/-- Whether no schema of a collection knows a key. -/
def Collection.isForeign (c : Collection) (key : String) : Bool :=
  !c.entities.any (·.knows key)

namespace Entity

variable {r : EntityRequest} {e : Entity}

/-- What an entity loses are its unknown keys. -/
theorem lostKeys_pruned (hconditions : e.conditions.keys = r.conditions.keys)
    (hdata : e.data = r.data) (hdistinct : r.Distinct) :
    r.lostKeys e.pruned = r.conditions.keys.filter (· ∈ e.unknownKeys) ++
      r.data.keys.filter (· ∈ e.unknownKeys) := by
  have hkeys : ∀ key, key ∈ e.pruned.conditions.keys ↔
      key ∈ r.conditions.keys ∧ key ∉ e.unknownKeys := by
    intro key
    rw [pruned, foldl_dropKey_conditions _ (hconditions ▸ hdistinct.conditions), ← hconditions]
    simp [Assoc.keys]
  have hrest : ∀ key, key ∈ e.pruned.data.keys ↔
      key ∈ r.data.keys ∧ key ∉ e.unknownKeys := by
    intro key
    rw [Assoc.keys, pruned,
      ((foldl_dropKey_data _ (hdata ▸ hdistinct.data)).map Prod.fst).mem_iff, ← hdata]
    simp [Assoc.keys]
  unfold EntityRequest.lostKeys
  refine congrArg₂ (· ++ ·) (List.filter_congr fun key hkey => ?_)
    (List.filter_congr fun key hkey => ?_)
  · rw [Bool.eq_iff_iff, Bool.not_eq_true', ← Bool.not_eq_true, Assoc.contains_iff, hkeys,
      decide_eq_true_iff]
    simp [hkey]
  · rw [Bool.eq_iff_iff, Bool.not_eq_true', ← Bool.not_eq_true, Assoc.contains_iff, hrest,
      decide_eq_true_iff]
    simp [hkey]

/-- What a request has lost are the unknown keys of its entity. -/
theorem mem_lostKeys_pruned (hconditions : e.conditions.keys = r.conditions.keys)
    (hdata : e.data = r.data) (hdistinct : r.Distinct) (key : String) :
    key ∈ r.lostKeys e.pruned ↔ key ∈ e.unknownKeys := by
  rw [lostKeys_pruned hconditions hdata hdistinct, List.mem_append, List.mem_filter,
    List.mem_filter, decide_eq_true_iff, ← or_and_right, and_iff_right_iff_imp, ← hconditions,
    ← hdata]
  intro h
  rcases List.mem_append.mp h with h | h
  · exact .inl ((List.filter_sublist.map _).mem h)
  · exact .inr (List.mem_of_mem_filter h)

/-- Where no computed key is lost, the keys are lost in the order of the unknown keys. -/
theorem lostKeys_eq_unknownKeys {i : Nat}
    (hread : readConditions i r.conditions = .ok e.conditions) (hdata : e.data = r.data)
    (hdistinct : r.Distinct) (hclear : r.Clear e.schema) :
    r.lostKeys e.pruned = e.unknownKeys := by
  have hconditions := keys_of_readConditions hread
  have hkeys : e.conditions.keys.Nodup := hconditions ▸ hdistinct.conditions
  have hlost : ∀ c ∈ e.conditions,
      decide (c.1 ∈ e.unknownKeys) = (!c.2.isComputed && !e.knows c.1) := by
    intro c hc
    obtain ⟨raw, hraw, hkey, hparse⟩ := exists_raw_of_mem hread hc
    have hown := hclear raw hraw
    rw [← Condition.isComputed_of_parse hparse, hkey, ← hdata] at hown
    rw [Bool.eq_iff_iff, decide_eq_true_iff, ← not_iff_not, notMem_unknownKeys_iff hkeys hc]
    cases hknown : e.knows c.1 with
    | true => simp
    | false =>
        have hfree : c.2.isComputed = true → e.data.contains c.1 = false := fun hcomputed =>
          Bool.eq_false_iff.mpr fun hshared =>
            Bool.eq_false_iff.mp hknown (hown hcomputed hshared)
        simpa using hfree
  have hleft : ∀ key ∈ e.data.keys, decide (key ∈ e.unknownKeys) = !e.knows key := by
    intro key hkey
    obtain ⟨d, hd, rfl⟩ := List.mem_map.mp hkey
    rw [Bool.eq_iff_iff, decide_eq_true_iff, ← not_iff_not, notMem_unknownKeys_of_data hd]
    simp
  rw [lostKeys_pruned hconditions hdata hdistinct, ← hconditions, ← hdata,
    List.filter_congr hleft, Assoc.keys, List.filter_map]
  conv_rhs => rw [unknownKeys, Assoc.keys]
  exact congrArg (List.map _ · ++ _) (List.filter_congr hlost)

end Entity

namespace Collection

/-! ## Errors of reading -/

/-- A list is refused because of one of its items. -/
theorem mapM_error {α β ε : Type} {f : α → Except ε β} {xs : List α} {err : ε}
    (h : xs.mapM f = .error err) : ∃ x ∈ xs, f x = .error err := by
  induction xs with
  | nil => cases h
  | cons x rest ih =>
      rw [List.mapM_cons] at h
      cases hx : f x with
      | error err' =>
          simp only [hx, bind, Except.bind, Except.error.injEq] at h
          exact ⟨x, List.mem_cons_self, h ▸ hx⟩
      | ok y =>
          cases hrest : rest.mapM f with
          | error err' =>
              simp only [hx, hrest, bind, Except.bind, Except.error.injEq] at h
              obtain ⟨x', hx', herr⟩ := ih (h ▸ hrest)
              exact ⟨x', List.mem_cons_of_mem _ hx', herr⟩
          | ok ys => simp [hx, hrest, bind, Except.bind, pure, Except.pure] at h

/-- A condition that cannot be read is malformed. -/
theorem malformed_of_read {i : Nat} {object : Object} {err : MapperError}
    (h : Entity.readConditions i object = .error err) :
    ∃ key reason, err = .malformed i key reason := by
  obtain ⟨⟨key, v⟩, -, hparse⟩ := mapM_error h
  dsimp only at hparse
  split at hparse
  · cases hparse
  next reason _ =>
    cases hparse
    exact ⟨key, reason, rfl⟩

/-- Reading does not refuse keys. -/
theorem ne_unknownProperty_of_read {catalog : SchemaCatalog} {config : Config}
    {requests : List EntityRequest} {err : MapperError}
    (h : entitiesOf catalog config requests = .error err) (i : Nat) (key : String) :
    err ≠ .unknownProperty i key := by
  obtain ⟨⟨r, place⟩, -, hread⟩ := mapM_error h
  rintro rfl
  dsimp only at hread
  rw [Entity.ofRequest_eq] at hread
  split at hread
  next hschema =>
    cases hread
    unfold SchemaRef.resolve at hschema
    split at hschema
    · cases hschema
    · split at hschema <;> cases hschema
  next hconditions =>
    cases hread
    obtain ⟨_, _, herr⟩ := malformed_of_read hconditions
    cases herr
  · cases hread

/-! ## Two modes -/

section Modes

variable {catalog : SchemaCatalog} {config : Config} {request : CollectionRequest}
  {entities : List Entity}

/-- The unknown keys of entities, in the order in which they are looked at. -/
def unknownKeysOf (entities : List Entity) : List (Nat × String) :=
  entities.flatMap fun e => e.unknownKeys.map fun key => (e.index, key)

/-- The error about a key of an entity, or a collection if there is none. -/
def refusedOr (c : Collection) : Option (Nat × String) → Except MapperError Collection
  | some (i, key) => .error (.unknownProperty i key)
  | none => .ok c

/-- A key is refused if it is the first one. -/
theorem refusedOr_eq_error {c : Collection} {first : Option (Nat × String)} {i : Nat}
    {key : String} :
    c.refusedOr first = .error (.unknownProperty i key) ↔ first = some (i, key) := by
  rcases first with _ | ⟨place, name⟩ <;> simp [refusedOr]

/-- Each entity that was read stands beside its request. -/
theorem pairs_of_read (hread : entitiesOf catalog config request.entities = .ok entities)
    (hdistinct : ∀ r ∈ request.entities, r.Distinct) :
    (request.entities.zipIdx.zip entities).map Prod.snd = entities ∧
    ∀ p ∈ request.entities.zipIdx.zip entities, p.1.1.Distinct ∧ p.2.index = p.1.2 ∧
      Entity.readConditions p.1.2 p.1.1.conditions = .ok p.2.conditions ∧
      p.2.data = p.1.1.data := by
  have hpairs := entitiesOf_iff.mp hread
  refine ⟨List.map_snd_zip (Nat.le_of_eq hpairs.length_eq.symm), fun p hp => ?_⟩
  obtain ⟨hindex, -, hconditions, hdata⟩ :=
    Entity.ofRequest_spec ((List.forall₂_iff_zip.mp hpairs).2 hp)
  exact ⟨hdistinct _ (List.fst_mem_of_mem_zipIdx (List.of_mem_zip hp).1), hindex, hconditions,
    hdata⟩

/-- What a collection has lost is what its entities have lost. -/
theorem lost_collectionOf (request : CollectionRequest) (entities : List Entity) :
    request.lost (request.collectionOf (entities.map Entity.pruned)) =
      (request.entities.zipIdx.zip entities).flatMap fun p =>
        (p.1.1.lostKeys p.2.pruned).map fun key => (p.1.2, key) := by
  rw [CollectionRequest.lost, CollectionRequest.pairs, CollectionRequest.collectionOf,
    List.zip_map_right, List.flatMap_map]
  rfl

/-- Pruned entities know as many keys as before, so that the same ones are foreign. -/
theorem isForeign_collectionOf (key : String) :
    (request.collectionOf (entities.map Entity.pruned)).isForeign key =
      !entities.any (·.knows key) := by
  simp [isForeign, CollectionRequest.collectionOf, List.any_map, Function.comp_def]

/-- A lost key is an unknown key of the entity at its place. -/
theorem mem_lost (hread : entitiesOf catalog config request.entities = .ok entities)
    (hdistinct : ∀ r ∈ request.entities, r.Distinct) (d : Nat × String) :
    d ∈ request.lost (request.collectionOf (entities.map Entity.pruned)) ↔
      d ∈ unknownKeysOf entities := by
  obtain ⟨hall, hpairs⟩ := pairs_of_read hread hdistinct
  obtain ⟨i, key⟩ := d
  have hlost : ∀ p ∈ request.entities.zipIdx.zip entities,
      (i, key) ∈ (p.1.1.lostKeys p.2.pruned).map (fun key => (p.1.2, key)) ↔
        p.2.index = i ∧ key ∈ p.2.unknownKeys := by
    intro p hp
    obtain ⟨hown, hindex, hconditions, hdata⟩ := hpairs p hp
    rw [← Entity.mem_lostKeys_pruned (Entity.keys_of_readConditions hconditions) hdata hown,
      hindex]
    simp [and_comm]
  have hunknown : (i, key) ∈ unknownKeysOf entities ↔
      ∃ e ∈ entities, e.index = i ∧ key ∈ e.unknownKeys := by
    rw [unknownKeysOf, List.mem_flatMap]
    simp [and_comm]
  rw [lost_collectionOf, List.mem_flatMap, hunknown]
  constructor
  · rintro ⟨p, hp, hmem⟩
    exact ⟨p.2, (List.of_mem_zip hp).2, (hlost p hp).mp hmem⟩
  · rintro ⟨e, he, hown⟩
    obtain ⟨p, hp, rfl⟩ := List.mem_map.mp (hall.symm ▸ he)
    exact ⟨p, hp, (hlost p hp).mpr hown⟩

/-- Where no computed key is lost, the keys are lost in the order in which they are looked
at. -/
theorem lost_eq (hread : entitiesOf catalog config request.entities = .ok entities)
    (hdistinct : ∀ r ∈ request.entities, r.Distinct)
    (hclear : request.Clear (request.collectionOf (entities.map Entity.pruned))) :
    request.lost (request.collectionOf (entities.map Entity.pruned)) =
      unknownKeysOf entities := by
  obtain ⟨hall, hpairs⟩ := pairs_of_read hread hdistinct
  have hlost : ∀ p ∈ request.entities.zipIdx.zip entities,
      (p.1.1.lostKeys p.2.pruned).map (fun key => (p.1.2, key)) =
        p.2.unknownKeys.map fun key => (p.2.index, key) := by
    intro p hp
    obtain ⟨hown, hindex, hconditions, hdata⟩ := hpairs p hp
    have hmem : (p.1, p.2.pruned) ∈
        request.pairs (request.collectionOf (entities.map Entity.pruned)) := by
      rw [CollectionRequest.pairs, CollectionRequest.collectionOf, List.zip_map_right]
      exact List.mem_map.mpr ⟨p, hp, rfl⟩
    have hfree : p.1.1.Clear p.2.schema :=
      Entity.foldl_dropKey_schema _ p.2 ▸ hclear _ hmem
    rw [Entity.lostKeys_eq_unknownKeys hconditions hdata hown hfree, hindex]
  calc request.lost (request.collectionOf (entities.map Entity.pruned))
      = (request.entities.zipIdx.zip entities).flatMap fun p =>
          (p.1.1.lostKeys p.2.pruned).map fun key => (p.1.2, key) := lost_collectionOf _ _
    _ = (request.entities.zipIdx.zip entities).flatMap fun p =>
          p.2.unknownKeys.map fun key => (p.2.index, key) := List.flatMap_congr hlost
    _ = ((request.entities.zipIdx.zip entities).map Prod.snd).flatMap fun e =>
          e.unknownKeys.map fun key => (e.index, key) := by rw [List.flatMap_map]
    _ = unknownKeysOf entities := by rw [hall, unknownKeysOf]

/-- What cannot be read is an error in both modes. -/
theorem build_of_unread {err : MapperError} (mode : Bool)
    (hread : entitiesOf catalog config request.entities = .error err) :
    build catalog { config with strictProperties := mode } request = .error err := by
  have hsame : entitiesOf catalog { config with strictProperties := mode } request.entities =
      .error err := hread
  rw [build_eq, hsame]

/-- Without strict properties a request that is read makes a collection. -/
theorem build_lenient (hread : entitiesOf catalog config request.entities = .ok entities) :
    build catalog { config with strictProperties := false } request =
      .ok (request.collectionOf (entities.map Entity.pruned)) := by
  have hsame : entitiesOf catalog { config with strictProperties := false } request.entities =
      .ok entities := hread
  simp only [build_eq, hsame, firstRefused?_of_lenient]

/-- Strict mode refuses the first unknown key that is foreign. -/
theorem build_of_strict (hread : entitiesOf catalog config request.entities = .ok entities) :
    let c := request.collectionOf (entities.map Entity.pruned)
    build catalog { config with strictProperties := true } request =
      c.refusedOr ((unknownKeysOf entities).find? fun d => c.isForeign d.2) := by
  intro c
  have hsame : entitiesOf catalog { config with strictProperties := true } request.entities =
      .ok entities := hread
  have hfirst : firstRefused? { config with strictProperties := true } entities =
      (unknownKeysOf entities).find? fun d => c.isForeign d.2 := by
    simp only [c, unknownKeysOf, isForeign_collectionOf, List.find?_flatMap, List.find?_map,
      Function.comp_def, firstRefused?, Bool.true_and]
  have hbuild := build_eq catalog { config with strictProperties := true } request
  rw [hsame] at hbuild
  rw [← hfirst]
  exact hbuild

end Modes

/-- **Strict mode only adds one error.**  A request that it does not refuse is built alike in
both modes.  It refuses exactly the requests that are accepted outside of it and lose a key
that no schema of the collection knows.  If no computed key is lost with data, it names the
first of the lost keys that no schema knows. -/
theorem build_strict (catalog : SchemaCatalog) (config : Config) (request : CollectionRequest)
    (hdistinct : ∀ r ∈ request.entities, r.Distinct) :
    let lenient := build catalog { config with strictProperties := false } request
    let strict := build catalog { config with strictProperties := true } request
    ((∀ i key, strict ≠ .error (.unknownProperty i key)) → strict = lenient) ∧
    ((∃ i key, strict = .error (.unknownProperty i key)) ↔
      ∃ c, lenient = .ok c ∧ ∃ d ∈ request.lost c, c.isForeign d.2 = true) ∧
    ∀ c, lenient = .ok c → request.Clear c → ∀ i key,
      strict = .error (.unknownProperty i key) ↔
        (request.lost c).find? (fun d => c.isForeign d.2) = some (i, key) := by
  intro lenient strict
  cases hread : entitiesOf catalog config request.entities with
  | error err =>
      have hlenient : lenient = .error err := build_of_unread false hread
      have hstrict : strict = .error err := build_of_unread true hread
      rw [hlenient, hstrict]
      refine ⟨fun _ => rfl, ⟨?_, ?_⟩, ?_⟩
      · rintro ⟨i, key, herr⟩
        exact absurd (Except.error.inj herr) (ne_unknownProperty_of_read hread i key)
      · rintro ⟨c, hc, -⟩
        cases hc
      · intro c hc
        cases hc
  | ok entities =>
      have hlenient : lenient = _ := build_lenient hread
      have hstrict : strict = _ := build_of_strict hread
      have hmem := mem_lost hread hdistinct
      have hlost := lost_eq hread hdistinct
      rw [hlenient, hstrict]
      generalize request.collectionOf (entities.map Entity.pruned) = c at hmem hlost ⊢
      refine ⟨?_, ?_, ?_⟩
      · intro hnever
        cases hfirst : (unknownKeysOf entities).find? fun d => c.isForeign d.2 with
        | none => rfl
        | some d => exact absurd (refusedOr_eq_error.mpr hfirst) (hnever d.1 d.2)
      · simp only [refusedOr_eq_error, Except.ok.injEq, exists_eq_left', hmem]
        rw [← List.find?_isSome, Option.isSome_iff_exists, Prod.exists]
      · rintro _ ⟨⟩ hclear i key
        rw [refusedOr_eq_error, hlost hclear]

/-- Of two keys that are lost, strict mode names the one that the other entity does not
know. -/
theorem build_strict_labelledThings :
    let request := requestOf
      [requestFor ["name"] [("name", .str "a"), ("label", .str "l")] [("title", .str "t")],
       requestFor ["label"] [] []]
    (∀ r ∈ request.entities, r.Distinct) ∧
    ∃ c, build ⟨[]⟩ {} request = .ok c ∧ request.Clear c ∧
      request.lost c = [(0, "label"), (0, "title")] ∧
      build ⟨[]⟩ { strictProperties := true } request = .error (.unknownProperty 0 "title") := by
  intro request
  have hdistinct : ∀ r ∈ request.entities, r.Distinct :=
    List.forall_mem_cons.mpr ⟨⟨by decide, by decide⟩,
      List.forall_mem_singleton.mpr ⟨by decide, by decide⟩⟩
  have hplain : ∀ r ∈ request.entities, ∀ d ∈ r.conditions,
      Condition.makesComputed d.2 = false := by
    simp only [request, requestOf, requestFor, List.forall_mem_cons]
    decide
  obtain ⟨c, hbuild, hlost, hfirst⟩ :
      ∃ c, build ⟨[]⟩ {} request = .ok c ∧
        request.lost c = [(0, "label"), (0, "title")] ∧
        (request.lost c).find? (fun d => c.isForeign d.2) = some (0, "title") :=
    ⟨_, rfl, rfl, rfl⟩
  have hclear : request.Clear c := by
    intro p hp d hd hcomputed
    have hr : p.1.1 ∈ request.entities := List.fst_mem_of_mem_zipIdx (List.of_mem_zip hp).1
    exact absurd hcomputed (by simp [hplain _ hr d hd])
  exact ⟨hdistinct, c, hbuild, hclear, hlost,
    ((build_strict ⟨[]⟩ {} request hdistinct).2.2 c hbuild hclear 0 "title").mpr hfirst⟩

/-- A computed key that is lost with data comes first among the lost keys, and strict mode
names the data in front of it. -/
theorem computed_key_not_named :
    let request := requestOf [requestFor ["name"] [("known", isKnown)]
      [("age", .num (.int 7)), ("known", .bool true)]]
    ∃ c, build ⟨[]⟩ {} request = .ok c ∧
      request.lost c = [(0, "known"), (0, "age"), (0, "known")] ∧
      c.isForeign "known" = true ∧
      build ⟨[]⟩ { strictProperties := true } request = .error (.unknownProperty 0 "age") :=
  ⟨_, rfl, rfl, rfl, rfl⟩

end Collection

end ObjectGraph
