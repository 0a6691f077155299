import Mathlib.Data.List.Forall2
import Mathlib.Data.List.Nodup
import Mathlib.Data.List.Perm.Basic
import ObjectGraph.Constraint.Basic

/-!
# Building a collection

What `Collection.build` makes of a request, said once.  Every entity is read in its place
(`Entity.ofRequest_spec`) and loses the keys it does not know (`Entity.pruned`), unless one of
them is refused (`Entity.prune_eq`); the first one that is refused decides over the whole
collection (`Collection.build_eq`).
-/

namespace ObjectGraph

open Json (Value Object)

/-! ## Reading -/

/-- The schema that a reference stands for. -/
def SchemaRef.resolve (catalog : SchemaCatalog) : SchemaRef → Except MapperError Schema
  | .inline schema => .ok schema
  | .byId id =>
    match catalog.get? id with
    | some schema => .ok schema
    | none => .error (.schemaUnresolved id)

/-- The entity that a request makes at a place, with a schema and conditions. -/
def EntityRequest.entityOf (r : EntityRequest) (config : Config) (i : Nat) (schema : Schema)
    (conditions : Assoc Condition) : Entity where
  index := i
  schema := schema
  conditions := conditions
  selection := r.selection.map SelectionRequest.toKeys
  data := r.data
  resolveType := r.resolveType.getD config.defaultResolveType
  orderBy := OrderRequest.keysOf r.orderBy
  limit := r.limit
  offset := r.offset
  distinct := r.distinct.getD false
  service := r.service

namespace Condition

/-- Whether the value of a condition makes a computed key. -/
def makesComputed (v : Value) : Bool :=
  (v.member? "bind").isSome

/-- What `bind` gives is a computed key. -/
theorem isComputed_of_parseBind {bind : Value} {c : Condition} (h : parseBind bind = .ok c) :
    c.isComputed = true := by
  unfold parseBind at h
  simp only [Bind.bind, Except.bind] at h
  split at h
  case h_5 => cases h
  all_goals
    split at h
    · cases h
      rfl
    · split at h <;> cases h
      rfl

/-- A relation gives no computed key. -/
theorem isComputed_of_parseRelation {members : Object} {name : Value} {c : Condition}
    (h : parseRelation members name = .ok c) : c.isComputed = false := by
  unfold parseRelation at h
  dsimp only at h
  split at h
  · cases h
  · split at h
    · cases h
    · split at h <;> cases h
      rfl

/-- A computed key is told from the value of its condition as it is sent. -/
theorem isComputed_of_parse {v : Value} {c : Condition} (h : parse v = .ok c) :
    c.isComputed = makesComputed v := by
  cases v with
  | null => cases h
  | bool b =>
      cases h
      rfl
  | num n =>
      cases h
      rfl
  | str s =>
      simp only [parse] at h
      split at h <;> cases h <;> rfl
  | arr items =>
      cases h
      rfl
  | obj members =>
      have hbind : makesComputed (.obj members) = (Assoc.get? members "bind").isSome := rfl
      simp only [parse] at h
      rw [hbind]
      split at h
      next bind _ hmember => rw [hmember, isComputed_of_parseBind h, Option.isSome_some]
      next hnone _ => rw [hnone, isComputed_of_parseRelation h, Option.isSome_none]
      next hnone _ =>
        cases h
        rw [hnone]
        rfl

end Condition

namespace Collection

/-- A run over a list ends well if it does so for each of its members. -/
theorem mapM_eq_ok_iff {α β ε : Type} {f : α → Except ε β} {xs : List α} {ys : List β} :
    xs.mapM f = .ok ys ↔ List.Forall₂ (fun x y => f x = .ok y) xs ys := by
  induction xs generalizing ys with
  | nil => cases ys <;> simp [pure, Except.pure]
  | cons x rest ih =>
      rw [List.mapM_cons]
      cases hx : f x with
      | error err => cases ys <;> simp [bind, Except.bind, hx]
      | ok y =>
          cases hrest : rest.mapM f with
          | error err => cases ys <;> simp [bind, Except.bind, ← ih, hrest, hx]
          | ok ys' =>
              cases ys <;> simp [bind, Except.bind, pure, Except.pure, ← ih, hrest, hx]

end Collection

namespace Entity

/-- What reading a request does: the schema comes first, and then the conditions. -/
theorem ofRequest_eq (catalog : SchemaCatalog) (config : Config) (i : Nat) (r : EntityRequest) :
    ofRequest catalog config i r =
      match r.schema.resolve catalog, readConditions i r.conditions with
      | .error err, _ => .error err
      | .ok _, .error err => .error err
      | .ok schema, .ok conditions => .ok (r.entityOf config i schema conditions) := by
  unfold ofRequest SchemaRef.resolve
  cases r.schema with
  | inline schema => cases readConditions i r.conditions <;> rfl
  | byId id =>
      cases hget : catalog.get? id with
      | none =>
          simp only [hget]
          rfl
      | some schema =>
          simp only [hget]
          cases readConditions i r.conditions <;> rfl

/-- What a request for an entity is read to, field by field. -/
theorem ofRequest_spec {catalog : SchemaCatalog} {config : Config} {i : Nat}
    {r : EntityRequest} {e : Entity} (h : ofRequest catalog config i r = .ok e) :
    e.index = i ∧ r.schema.resolve catalog = .ok e.schema ∧
      readConditions i r.conditions = .ok e.conditions ∧ e.data = r.data := by
  rw [ofRequest_eq] at h
  split at h
  · cases h
  · cases h
  next schema conditions hschema hread =>
    cases h
    exact ⟨rfl, hschema, hread, rfl⟩

/-- Conditions are read one by one, each under its key. -/
theorem readConditions_iff {i : Nat} {object : Object} {conditions : Assoc Condition} :
    readConditions i object = .ok conditions ↔
      List.Forall₂ (fun raw c => raw.1 = c.1 ∧ Condition.parse raw.2 = .ok c.2)
        object conditions := by
  rw [readConditions, Collection.mapM_eq_ok_iff]
  refine iff_of_eq (congrArg (List.Forall₂ · object conditions) ?_)
  funext raw c
  obtain ⟨key, v⟩ := raw
  obtain ⟨key', condition⟩ := c
  cases hparse : Condition.parse v <;> simp [hparse, and_comm]

/-- A condition was read from one of the object under its key. -/
theorem exists_raw_of_mem {i : Nat} {object : Object} {conditions : Assoc Condition}
    (h : readConditions i object = .ok conditions) {c : String × Condition}
    (hc : c ∈ conditions) : ∃ raw ∈ object, raw.1 = c.1 ∧ Condition.parse raw.2 = .ok c.2 := by
  replace h := readConditions_iff.mp h
  induction h with
  | nil => cases hc
  | cons hread _ ih =>
      rcases List.mem_cons.mp hc with rfl | hc
      · exact ⟨_, List.mem_cons_self, hread⟩
      · obtain ⟨raw, hraw, hread⟩ := ih hc
        exact ⟨raw, List.mem_cons_of_mem _ hraw, hread⟩

/-- Conditions stand under the keys of the request. -/
theorem keys_of_readConditions {i : Nat} {object : Object} {conditions : Assoc Condition}
    (h : readConditions i object = .ok conditions) : conditions.keys = object.keys := by
  refine List.forall₂_eq_eq_eq ▸ ?_
  rw [Assoc.keys, Assoc.keys, List.forall₂_map_left_iff, List.forall₂_map_right_iff]
  exact (readConditions_iff.mp h).flip.imp fun _ _ hread => hread.1.symm

/-! ## Pruning -/

/-- An entity without the keys it does not know. -/
def pruned (e : Entity) : Entity :=
  e.unknownKeys.foldl dropKey e

/-- The first unknown key that is refused decides; if there is none, all of them go. -/
theorem prune_eq (config : Config) (known : String → Bool) (e : Entity) :
    prune config known e =
      match e.unknownKeys.find? fun key => config.strictProperties && !known key with
      | some key => .error (.unknownProperty e.index key)
      | none => .ok e.pruned := by
  unfold prune pruned
  generalize e.unknownKeys = keys
  induction keys generalizing e with
  | nil => rfl
  | cons key rest ih =>
      rw [List.foldlM_cons, List.find?_cons, List.foldl_cons]
      split
      next h =>
        rw [h]
        rfl
      next h =>
        rw [Bool.not_eq_true _ |>.mp h]
        exact ih (e.dropKey key)

/-- Dropping keys leaves the schema alone. -/
theorem foldl_dropKey_schema (keys : List String) (e : Entity) :
    (keys.foldl dropKey e).schema = e.schema := by
  induction keys generalizing e with
  | nil => rfl
  | cons key rest ih => exact ih (e.dropKey key)

theorem foldl_dropKey_index (keys : List String) (e : Entity) :
    (keys.foldl dropKey e).index = e.index := by
  induction keys generalizing e with
  | nil => rfl
  | cons key rest ih => exact ih (e.dropKey key)

/-- Dropping keys drops the conditions on them and no others. -/
theorem foldl_dropKey_conditions (keys : List String) {e : Entity}
    (hkeys : e.conditions.keys.Nodup) :
    (keys.foldl dropKey e).conditions = e.conditions.filter fun c => c.1 ∉ keys := by
  induction keys generalizing e with
  | nil => simp
  | cons key rest ih =>
      have herase : (e.dropKey key).conditions = e.conditions.filter fun c => c.1 ≠ key :=
        Assoc.erase_eq_filter hkeys key
      have hleft : (e.dropKey key).conditions.keys.Nodup :=
        herase ▸ hkeys.sublist (List.filter_sublist.map _)
      rw [List.foldl_cons, ih hleft, herase, List.filter_filter]
      refine List.filter_congr fun c _ => ?_
      by_cases h : c.1 = key <;> simp [h]

/-- The last entry takes the place of a dropped one, so data is left in some order. -/
theorem foldl_dropKey_data (keys : List String) {e : Entity} (hkeys : e.data.keys.Nodup) :
    (keys.foldl dropKey e).data.Perm (e.data.filter fun d => d.1 ∉ keys) := by
  induction keys generalizing e with
  | nil => simp
  | cons key rest ih =>
      have herase : (e.dropKey key).data.Perm (e.data.filter fun d => d.1 ≠ key) :=
        Assoc.erase_eq_filter hkeys key ▸ Assoc.swapErase_perm e.data key
      have hleft : (e.dropKey key).data.keys.Nodup :=
        (herase.map Prod.fst).nodup_iff.mpr (hkeys.sublist (List.filter_sublist.map _))
      refine (ih hleft).trans ((herase.filter _).trans ?_)
      rw [List.filter_filter]
      refine .of_eq (List.filter_congr fun d _ => ?_)
      by_cases h : d.1 = key <;> simp [h]

/-- An entity keeps its number when it loses what it does not know. -/
@[simp] theorem pruned_index (e : Entity) : e.pruned.index = e.index :=
  foldl_dropKey_index _ e

/-- An entity knows the same keys when it has lost those it does not know. -/
@[simp] theorem pruned_knows (e : Entity) (key : String) : e.pruned.knows key = e.knows key := by
  rw [knows, pruned, foldl_dropKey_schema, knows]

/-- A condition stays if its key is known, or if it is a computed one and no data has its
key. -/
theorem notMem_unknownKeys_iff {e : Entity} (hkeys : e.conditions.keys.Nodup)
    {c : String × Condition} (hc : c ∈ e.conditions) :
    c.1 ∉ e.unknownKeys ↔
      e.knows c.1 = true ∨ (c.2.isComputed = true ∧ e.data.contains c.1 = false) := by
  have hown : c.1 ∈ Assoc.keys (e.conditions.filter fun c => !c.2.isComputed && !e.knows c.1) ↔
      c.2.isComputed = false ∧ e.knows c.1 = false := by
    constructor
    · intro h
      obtain ⟨d, hd, heq⟩ := List.mem_map.mp h
      obtain ⟨hmem, htest⟩ := List.mem_filter.mp hd
      -- the keys are different, so the entry of the key is the condition
      obtain rfl : d = c := List.inj_on_of_nodup_map hkeys hmem hc heq
      simpa using htest
    · intro h
      exact List.mem_map.mpr ⟨c, List.mem_filter.mpr ⟨hc, by simp [h]⟩, rfl⟩
  have hdata : c.1 ∈ e.data.keys.filter (!e.knows ·) ↔
      e.data.contains c.1 = true ∧ e.knows c.1 = false := by
    rw [List.mem_filter, Assoc.contains_iff, Bool.not_eq_true']
  rw [unknownKeys, List.mem_append, hown, hdata]
  cases e.knows c.1 <;> cases c.2.isComputed <;> simp

/-- A data key stays if it is known. -/
theorem notMem_unknownKeys_of_data {e : Entity} {d : String × Value} (hd : d ∈ e.data) :
    d.1 ∉ e.unknownKeys ↔ e.knows d.1 = true := by
  rw [← not_iff_not, Decidable.not_not, Bool.not_eq_true]
  constructor
  · intro h
    rcases List.mem_append.mp h with h | h
    · obtain ⟨c, hc, heq⟩ := List.mem_map.mp h
      have htest : c.2.isComputed = false ∧ e.knows c.1 = false := by
        simpa using (List.mem_filter.mp hc).2
      exact heq ▸ htest.2
    · simpa using (List.mem_filter.mp h).2
  · intro h
    exact List.mem_append_right _ (List.mem_filter.mpr ⟨List.mem_map_of_mem hd, by simp [h]⟩)

end Entity

/-! ## The whole collection -/

/-- The collection that a request makes of entities. -/
def CollectionRequest.collectionOf (r : CollectionRequest) (entities : List Entity) :
    Collection where
  id := r.id
  entities := entities
  orderBy := OrderRequest.keysOf r.orderBy
  limit := r.limit
  offset := r.offset
  distinct := r.distinct.getD false
  options := r.options

namespace Collection

/-- The first key that is refused, with the number of the entity that has it: in strict mode,
an unknown key that no other entity knows either. -/
def firstRefused? (config : Config) (entities : List Entity) : Option (Nat × String) :=
  entities.findSome? fun e =>
    (e.unknownKeys.find? fun key =>
      config.strictProperties && !entities.any (·.knows key)).map fun key => (e.index, key)

/-- Entities are pruned in their order, up to the first that has a refused key. -/
theorem mapM_prune (config : Config) (known : String → Bool) (entities : List Entity) :
    entities.mapM (Entity.prune config known) =
      match entities.findSome? fun e => (e.unknownKeys.find? fun key =>
          config.strictProperties && !known key).map fun key => (e.index, key) with
      | some (i, key) => .error (.unknownProperty i key)
      | none => .ok (entities.map Entity.pruned) := by
  induction entities with
  | nil => rfl
  | cons e rest ih =>
      rw [List.mapM_cons, Entity.prune_eq, List.findSome?_cons]
      cases e.unknownKeys.find? fun key => config.strictProperties && !known key with
      | some key => rfl
      | none =>
          simp only [bind, Except.bind, ih, Option.map_none]
          rcases rest.findSome? _ with _ | ⟨i, key⟩ <;> rfl

/-- **What building does.**  All entities are read first.  Then a refused key decides, and if
there is none every entity loses its unknown keys. -/
theorem build_eq (catalog : SchemaCatalog) (config : Config) (r : CollectionRequest) :
    build catalog config r =
      match entitiesOf catalog config r.entities with
      | .error err => .error err
      | .ok entities =>
        match firstRefused? config entities with
        | some (i, key) => .error (.unknownProperty i key)
        | none => .ok (r.collectionOf (entities.map Entity.pruned)) := by
  unfold build
  cases entitiesOf catalog config r.entities with
  | error err => rfl
  | ok entities =>
      simp only [bind, Except.bind, mapM_prune, firstRefused?]
      rcases entities.findSome? _ with _ | ⟨i, key⟩ <;> rfl

/-- Outside of strict mode no key is refused. -/
theorem firstRefused?_of_lenient {config : Config} (h : config.strictProperties = false)
    (entities : List Entity) : firstRefused? config entities = none := by
  simp [firstRefused?, h]

/-- Entities are read in their places. -/
theorem entitiesOf_iff {catalog : SchemaCatalog} {config : Config}
    {requests : List EntityRequest} {entities : List Entity} :
    entitiesOf catalog config requests = .ok entities ↔
      List.Forall₂ (fun p e => Entity.ofRequest catalog config p.2 p.1 = .ok e)
        requests.zipIdx entities :=
  mapM_eq_ok_iff

/-- An accepted collection consists of the entities that were read, without their unknown
keys. -/
theorem entities_of_build {catalog : SchemaCatalog} {config : Config} {r : CollectionRequest}
    {c : Collection} (h : build catalog config r = .ok c) :
    ∃ entities, entitiesOf catalog config r.entities = .ok entities ∧
      c = r.collectionOf (entities.map Entity.pruned) := by
  rw [build_eq] at h
  split at h
  · cases h
  next entities hread =>
    split at h
    · cases h
    · cases h
      exact ⟨entities, hread, rfl⟩

/-- Entities are numbered by their places. -/
def Numbered (c : Collection) : Prop :=
  ∀ i (e : Entity), c.entities[i]? = some e → e.index = i

/-- Collections are built with their entities numbered. -/
theorem build_numbered {catalog : SchemaCatalog} {config : Config} {r : CollectionRequest}
    {c : Collection} (h : build catalog config r = .ok c) : c.Numbered := by
  obtain ⟨entities, hread, rfl⟩ := entities_of_build h
  intro i e he
  have hindex : (entities.map Entity.pruned).map (·.index) = r.entities.zipIdx.map (·.2) := by
    rw [← List.forall₂_eq_eq_eq, List.forall₂_map_left_iff, List.forall₂_map_left_iff,
      List.forall₂_map_right_iff]
    refine (entitiesOf_iff.mp hread).flip.imp fun e p hp => ?_
    rw [Entity.pruned_index, (Entity.ofRequest_spec hp).1]
  have hat : ((entities.map Entity.pruned).map (·.index))[i]? = some e.index := by
    rw [List.getElem?_map]
    exact congrArg _ he
  rw [hindex, List.zipIdx_map_snd, List.getElem?_eq_some_iff] at hat
  obtain ⟨hi, hat⟩ := hat
  rw [List.getElem_range', Nat.zero_add, Nat.one_mul] at hat
  exact hat.symm

end Collection

end ObjectGraph
