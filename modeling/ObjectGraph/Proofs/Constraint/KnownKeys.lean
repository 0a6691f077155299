import ObjectGraph.Proofs.Constraint.Building

/-!
# The keys that building keeps

A schema keeps the conditions on its own keys and on computed ones
(`Schema.keptConditions`), and the data on its own keys (`Schema.keptData`); neither choice
looks at the other map.  Outside of strict mode every entity of an accepted collection has
just the data that its schema keeps, and the conditions that its schema keeps except for one
sort: a computed key goes with unknown data of the same name (`Collection.build_retains`).
-/

namespace ObjectGraph

open Json (Value Object)

/-- The conditions that a schema keeps: those on keys that it knows, and computed keys. -/
def Schema.keptConditions (s : Schema) (conditions : Object) : Object :=
  conditions.filter fun c => s.knows c.1 || Condition.makesComputed c.2

/-- The data that a schema keeps: what stands under keys that it knows. -/
def Schema.keptData (s : Schema) (data : Object) : Object :=
  data.filter fun d => s.knows d.1

namespace EntityRequest

/-- The keys of an object are different. -/
structure Distinct (r : EntityRequest) : Prop where
  conditions : r.conditions.keys.Nodup
  data : r.data.keys.Nodup

/-- Data under a computed key is data that the schema knows. -/
def Clear (r : EntityRequest) (s : Schema) : Prop :=
  ∀ c ∈ r.conditions, Condition.makesComputed c.2 = true → r.data.contains c.1 = true →
    s.knows c.1 = true

end EntityRequest

namespace Entity

/-- What an accepted collection has of the request for an entity. -/
structure Retains (catalog : SchemaCatalog) (r : EntityRequest) (i : Nat) (e : Entity) :
    Prop where
  index : e.index = i
  schema : r.schema.resolve catalog = .ok e.schema
  /-- The kept conditions in their order, without computed keys that unknown data has, too. -/
  conditions : readConditions i ((e.schema.keptConditions r.conditions).filter fun c =>
    e.schema.knows c.1 || !r.data.contains c.1) = .ok e.conditions
  /-- They are all kept conditions exactly if no unknown data is in the way. -/
  complete : readConditions i (e.schema.keptConditions r.conditions) = .ok e.conditions ↔
    r.Clear e.schema
  data : e.data.Perm (e.schema.keptData r.data)

/-- Filters that agree on what is related keep lists related. -/
theorem forall₂_filter {α β : Type} {R : α → β → Prop} {p : α → Bool} {q : β → Bool}
    {xs : List α} {ys : List β} (h : List.Forall₂ R xs ys)
    (hpq : ∀ x, ∀ y ∈ ys, R x y → p x = q y) :
    List.Forall₂ R (xs.filter p) (ys.filter q) := by
  induction h with
  | nil => exact .nil
  | @cons x y xs ys hxy _ ih =>
      have hrest := ih fun x' y' hy' => hpq x' y' (List.mem_cons_of_mem _ hy')
      rw [List.filter_cons, List.filter_cons, hpq x y List.mem_cons_self hxy]
      split
      · exact .cons hxy hrest
      · exact hrest

/-- The conditions that stay are read from those of the request that stay. -/
theorem readConditions_pruned {i : Nat} {r : EntityRequest} {e : Entity}
    (hread : readConditions i r.conditions = .ok e.conditions) (hdata : e.data = r.data)
    (hdistinct : r.Distinct) :
    readConditions i ((e.schema.keptConditions r.conditions).filter fun c =>
      e.schema.knows c.1 || !r.data.contains c.1) = .ok e.pruned.conditions := by
  have hkeys : e.conditions.keys.Nodup := keys_of_readConditions hread ▸ hdistinct.conditions
  rw [Schema.keptConditions, List.filter_filter, pruned, foldl_dropKey_conditions _ hkeys,
    readConditions_iff]
  refine forall₂_filter (readConditions_iff.mp hread) ?_
  intro raw c hc hown
  obtain ⟨hkey, hparse⟩ := hown
  have hstays := notMem_unknownKeys_iff hkeys hc
  rw [Condition.isComputed_of_parse hparse, hdata, knows] at hstays
  rw [hkey, Bool.eq_iff_iff, decide_eq_true_iff, hstays]
  cases e.schema.knows c.1 <;> simp [and_comm]

/-- Reading gives as many conditions as there are. -/
theorem filter_eq_self_of_readConditions {i : Nat} {object : Object} {p : String × Value → Bool}
    {conditions : Assoc Condition} (hall : readConditions i object = .ok conditions)
    (hsome : readConditions i (object.filter p) = .ok conditions) : object.filter p = object := by
  have hkeys := (keys_of_readConditions hsome).symm.trans (keys_of_readConditions hall)
  have hlength := congrArg List.length hkeys
  rw [Assoc.keys, Assoc.keys, List.length_map, List.length_map] at hlength
  exact List.filter_sublist.eq_of_length hlength

/-- An entity that was read retains what it is to retain when it loses its unknown keys. -/
theorem retains_pruned {catalog : SchemaCatalog} {config : Config} {i : Nat}
    {r : EntityRequest} {e : Entity} (h : ofRequest catalog config i r = .ok e)
    (hdistinct : r.Distinct) : e.pruned.Retains catalog r i := by
  obtain ⟨hindex, hschema, hread, hdata⟩ := ofRequest_spec h
  have hown : e.pruned.schema = e.schema := foldl_dropKey_schema _ e
  have hstay := readConditions_pruned hread hdata hdistinct
  refine ⟨e.pruned_index.trans hindex, hown ▸ hschema, hown ▸ hstay, ?_, ?_⟩
  · rw [hown]
    constructor
    · intro hall c hc hcomputed hshared
      have hself := filter_eq_self_of_readConditions hall hstay
      have hmem : c ∈ e.schema.keptConditions r.conditions :=
        List.mem_filter.mpr ⟨hc, by simp [hcomputed]⟩
      simpa [hshared] using List.filter_eq_self.mp hself c hmem
    · intro hclear
      rw [← hstay]
      refine congrArg _ (List.filter_eq_self.mpr fun c hc => ?_).symm
      obtain ⟨hmem, hkept⟩ := List.mem_filter.mp hc
      cases hknown : e.schema.knows c.1 with
      | true => rfl
      | false =>
          rw [hknown, Bool.false_or] at hkept
          cases hshared : r.data.contains c.1 with
          | false => rfl
          | true => exact absurd (hclear c hmem hkept hshared) (by simp [hknown])
  · rw [hown, Schema.keptData, ← hdata]
    refine (foldl_dropKey_data _ (hdata ▸ hdistinct.data)).trans
      (.of_eq (List.filter_congr fun d hd => ?_))
    rw [Bool.eq_iff_iff, decide_eq_true_iff, notMem_unknownKeys_of_data hd, knows]

end Entity

namespace Collection

/-- **Known keys stay.**  Each entity of an accepted collection has exactly the data that its
schema keeps, and exactly the conditions that its schema keeps if no unknown data stands
under a computed key. -/
theorem build_retains {catalog : SchemaCatalog} {config : Config} {request : CollectionRequest}
    {c : Collection} (hdistinct : ∀ r ∈ request.entities, r.Distinct)
    (h : build catalog config request = .ok c) :
    List.Forall₂ (fun p e => Entity.Retains catalog p.1 p.2 e)
      request.entities.zipIdx c.entities := by
  obtain ⟨entities, hread, rfl⟩ := entities_of_build h
  have hplaces : ∀ p ∈ request.entities.zipIdx, p.1.Distinct := fun p hp =>
    hdistinct p.1 (List.fst_mem_of_mem_zipIdx hp)
  change List.Forall₂ _ _ (entities.map Entity.pruned)
  rw [List.forall₂_map_right_iff]
  refine ((List.forall₂_and_left _ _).mpr ⟨hplaces, entitiesOf_iff.mp hread⟩).imp ?_
  intro p e hpair
  exact Entity.retains_pruned hpair.2 hpair.1

/-! ## Things with a computed key -/

/-- A condition that makes a computed key: whether somebody knows the thing. -/
def isKnown : Value :=
  .obj [("bind", .obj [("relation", .str "exists"), ("triples", .arr
    [.obj [("subject", .str "?p"), ("predicate", .str "ex:knows"), ("object", .str "?eIri0")]])])]

/-- A request for an entity of a schema with some properties. -/
def requestFor (properties : List String) (conditions data : Object) : EntityRequest where
  schema := .inline
    { targetClass := some "ex:Thing"
      context := properties.map fun key => (key, .str ("ex:" ++ key))
      properties := properties.map fun key => (key, {}) }
  conditions := conditions
  selection := none
  data := data
  resolveType := none
  orderBy := none
  limit := none
  offset := none
  distinct := none
  service := none

/-- A request for a collection of some entities. -/
def requestOf (entities : List EntityRequest) : CollectionRequest where
  id := none
  entities := entities
  orderBy := none
  limit := none
  offset := none
  distinct := none
  options := []

/-- A thing with a nick that its schema does not know keeps its name, in conditions and in
data, and its computed key. -/
theorem build_retains_namedThing :
    let r := requestFor ["name"]
      [("nick", .str "n"), ("known", isKnown), ("name", .str "a")]
      [("nick", .str "m"), ("name", .str "b"), ("age", .num (.int 7))]
    r.Distinct ∧ ∃ c e, build ⟨[]⟩ {} (requestOf [r]) = .ok c ∧ c.entities = [e] ∧
      e.conditions.keys = ["known", "name"] ∧ e.data.keys = ["name"] ∧
      r.Clear e.schema ∧ e.Retains ⟨[]⟩ r 0 := by
  intro r
  have hdistinct : r.Distinct := ⟨by decide, by decide⟩
  have hfree : ∀ c ∈ r.conditions, Condition.makesComputed c.2 = true →
      r.data.contains c.1 = false := by
    simp only [r, requestFor, List.forall_mem_cons]
    decide
  obtain ⟨c, e, hbuild, hentities, hconditions, hdata⟩ :
      ∃ c e, build ⟨[]⟩ {} (requestOf [r]) = .ok c ∧ c.entities = [e] ∧
        e.conditions.keys = ["known", "name"] ∧ e.data.keys = ["name"] :=
    ⟨_, _, rfl, rfl, rfl, rfl⟩
  have hretains := build_retains (List.forall_mem_singleton.mpr hdistinct) hbuild
  rw [hentities] at hretains
  refine ⟨hdistinct, c, e, hbuild, hentities, hconditions, hdata, ?_,
    (List.forall₂_cons.mp hretains).1⟩
  exact fun c hc hcomputed hshared => absurd hshared (by simp [hfree c hc hcomputed])

/-- Data that a schema does not know takes away the computed key of its name, which stays
where there is no such data. -/
theorem computed_key_dropped :
    let r := fun data => requestFor ["name"] [("known", isKnown)] data
    (∃ c e, build ⟨[]⟩ {} (requestOf [r []]) = .ok c ∧ c.entities = [e] ∧
      e.schema.keptConditions (r []).conditions = [("known", isKnown)] ∧
      e.conditions.keys = ["known"]) ∧
    ∃ c e, build ⟨[]⟩ {} (requestOf [r [("known", .bool true)]]) = .ok c ∧ c.entities = [e] ∧
      e.schema.keptConditions (r [("known", .bool true)]).conditions = [("known", isKnown)] ∧
      e.conditions = [] :=
  ⟨⟨_, _, rfl, rfl, rfl, rfl⟩, _, _, rfl, rfl, rfl, rfl⟩

end Collection

end ObjectGraph
