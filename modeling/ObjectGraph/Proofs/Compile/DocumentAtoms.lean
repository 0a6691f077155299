import ObjectGraph.Proofs.Compile.PlacedAtoms
import ObjectGraph.Proofs.Compile.SafeUpdates

/-!
# Where the atoms of a query come from

What fragments are merged to, and what updates add to them, has no other atoms: the data
brings the IRIs that its values refer to, and an order brings the names that its keys write
behind a question mark, as they stand.  So of each query and each update that a collection is
compiled to, every variable has a name or is one that an order names, every IRI is of the
vocabulary or placed there by an entity, and there is neither a language tag nor a blank node
(`Collection.compiles_admits`).
-/

namespace ObjectGraph

open Allocator (IsName)
open Json (Value)
open Sparql (Atom Var Term Triple Expression Pattern Operation Document)

/-! ## Operations -/

namespace Entity

variable {ns : Namespaces} {config : Config} {e : Entity} {subject : Term}

/-- Stored data is data of the entity. -/
theorem mem_data_of_storedData {d : String × Mapping × Value} (h : d ∈ e.storedData ns) :
    (d.1, d.2.2) ∈ e.data := by
  obtain ⟨⟨key, v⟩, hmem, hd⟩ := List.mem_filterMap.mp h
  dsimp only at hd
  split at hd
  · cases hd
  · obtain ⟨m, -, rfl⟩ := Option.map_eq_some_iff.mp hd
    exact hmem

/-- The conditions that an update looks at are conditions of the entity. -/
theorem mem_conditions_of_updateConditions {entry : String × Mapping × Condition}
    (h : entry ∈ e.updateConditions ns) : (entry.1, entry.2.2) ∈ e.conditions := by
  obtain ⟨⟨key, condition⟩, hmem, hentry⟩ := List.mem_filterMap.mp h
  dsimp only at hentry
  split at hentry
  · cases hentry
  · cases condition with
    | shared | computed => cases hentry
    | value | related =>
        obtain ⟨m, -, rfl⟩ := Option.map_eq_some_iff.mp hentry
        exact hmem

/-- Data triples have the IRIs of the subject and those that the data refers to. -/
theorem all_dataTriples (hsubject : subject.All (e.Admits ns config)) :
    ∀ t ∈ (e.storedData ns).flatMap (e.dataTriples ns subject), t.All (e.Admits ns config) := by
  intro t ht
  obtain ⟨d, hd, ht⟩ := List.mem_flatMap.mp ht
  obtain ⟨object, hobject, rfl⟩ := List.mem_map.mp ht
  obtain ⟨item, hitem, rfl⟩ := List.mem_map.mp hobject
  refine Mapping.all_triple (uses_predicate (mapping_of_storedData hd)) hsubject ?_
  refine Encode.all_value (fun _ => .inl) fun hkind s hs => ?_
  exact .inr (.data (mem_data_of_storedData hd) (List.mem_of_mem_filter hitem) ⟨hkind, hs⟩)

/-- An insertion writes atoms of its entity alone. -/
theorem compileInsert_admits {op : Operation} (h : e.compileInsert ns = .ok op) :
    op.All (e.Admits ns config) := by
  obtain ⟨s, hid, class_, hclass, rfl⟩ := compileInsert_cases h
  have hsubject : (Term.iri (ns.expand s)).All (e.Admits ns config) := uses_dataText? rfl hid
  refine List.forall_mem_append.mpr
    ⟨List.forall_mem_map.mpr fun i hi => ?_, all_dataTriples hsubject⟩
  refine Fragment.Within.exactType ?_ hsubject
  rcases hclass i (Option.mem_toList.mp hi) with ⟨type, htype, rfl⟩ | hschema
  · exact uses_dataText? rfl htype
  · exact .inr (.class_ hschema)

namespace Matches

/-- A property holds of all atoms of what is matched. -/
structure Within (P : Atom → Prop) (m : Matches) : Prop where
  optional : ∀ t ∈ m.optional, t.All P
  filters : ∀ g ∈ m.filters, g.All P
  vars : ∀ x ∈ m.vars, P (.var x.2)

/-- A condition adds atoms of its entity alone to what an update matches. -/
theorem Within.addCondition {m : Matches} (h : m.Within (e.Admits ns config))
    (hsubject : subject.All (e.Admits ns config)) {entry : String × Mapping × Condition}
    (hentry : entry ∈ e.updateConditions ns) :
    (m.addCondition ns e subject entry).Within (e.Admits ns config) := by
  have hmapping := mapping_of_updateConditions hentry
  have hname := m.alloc.isName_join (entry.1 ++ toString e.index)
  refine ⟨forall_mem_snoc h.optional ?_, List.forall_mem_append.mpr ⟨h.filters, fun g hg => ?_⟩,
    forall_mem_snoc h.vars hname⟩
  · exact Mapping.all_triple (uses_predicate hmapping) hsubject hname
  · exact all_conditionFilter (mem_conditions_of_updateConditions hentry) hmapping hsubject hname g
      (Option.mem_toList.mp hg)

/-- The old values of the data are asked for and deleted by the triples of their keys. -/
theorem Within.oldValues {m : Matches} (h : m.Within (e.Admits ns config))
    (hsubject : subject.All (e.Admits ns config))
    {data : List (String × Mapping × Value)} (hdata : ∀ d ∈ data, e.mapping? ns d.1 = some d.2.1) :
    (∀ t ∈ (m.oldValues e subject data).1, t.All (e.Admits ns config)) ∧
      (m.oldValues e subject data).2.Within (e.Admits ns config) := by
  induction data generalizing m with
  | nil => exact ⟨List.forall_mem_nil _, h⟩
  | cons d rest ih =>
      obtain ⟨key, mapping, v⟩ := d
      have hpredicate : e.Uses ns config mapping.iri := uses_predicate (hdata _ List.mem_cons_self)
      obtain ⟨x, m', hvalue, hx, hm'⟩ : ∃ x m', m.oldValue e subject key mapping = (x, m') ∧
          IsName x.name ∧ m'.Within (e.Admits ns config) := by
        unfold Matches.oldValue
        cases hx : Assoc.get? m.vars key with
        | some x => exact ⟨x, m, rfl, h.vars _ (Assoc.mem_of_get? hx), h⟩
        | none =>
            have hname := m.alloc.isName_join (key ++ toString e.index)
            exact ⟨_, _, rfl, hname,
              forall_mem_snoc h.optional (Mapping.all_triple hpredicate hsubject hname),
              h.filters, h.vars⟩
      obtain ⟨hdelete, hmatched⟩ := ih hm' fun d hd => hdata d (List.mem_cons_of_mem _ hd)
      simp only [Matches.oldValues, hvalue]
      exact ⟨List.forall_mem_cons.mpr ⟨Mapping.all_triple hpredicate hsubject hx, hdelete⟩,
        hmatched⟩

end Matches

/-- An update writes atoms of its entity alone. -/
theorem compileUpdate_admits {a a' : Allocator} {op : Operation}
    (h : e.compileUpdate ns a = .ok (op, a')) : op.All (e.Admits ns config) := by
  obtain ⟨subject, b, hs, rfl, -⟩ := compileUpdate_cases h
  have hsubject : subject.All (e.Admits ns config) := Fragment.Within.subjectTerm hs
  have hfound : (e.matchedConditions ns subject b).Within (e.Admits ns config) :=
    List.foldlRecOn _ _ ⟨List.forall_mem_nil _, List.forall_mem_nil _, List.forall_mem_nil _⟩
      fun m hm entry hentry => hm.addCondition hsubject (keyConditions_subset subject hentry)
  obtain ⟨hdelete, hmatched⟩ := hfound.oldValues hsubject fun d hd => mapping_of_storedData hd
  refine ⟨hdelete, all_dataTriples hsubject, Sparql.groupAll_iff.mpr ?_⟩
  simp only [updateGroup, List.cons_append, List.forall_mem_cons, List.forall_mem_append,
    List.forall_mem_map]
  refine ⟨List.forall_mem_map.mpr fun class_ hclass => ?_, fun t ht => ?_, hmatched.filters⟩
  · exact Fragment.Within.exactType (Fragment.Within.uses_class (Option.mem_toList.mp hclass))
      hsubject
  · exact ⟨List.forall_mem_singleton.mpr (hmatched.optional t ht), trivial⟩

/-- What an entity is to select and how its types are found has no bearing on its IRIs. -/
theorem Places.of_selector {selection : Option (List String)} {resolveType : Bool} {i : String}
    (h : Places ns config { e with selection := selection, resolveType := resolveType } i) :
    e.Places ns config i := by
  cases h with
  | class_ h => exact .class_ h
  | predicate h => exact .predicate h
  | service h => exact .service h
  | condition hcondition hcompared hterms hv hrefers =>
      exact .condition hcondition hcompared hterms hv ⟨hrefers.kind, hrefers.text⟩
  | computed hcondition => exact .computed hcondition
  | position hcondition ht hs hfree => exact .position hcondition ht hs hfree
  | data hdata hitem hrefers => exact .data hdata hitem ⟨hrefers.kind, hrefers.text⟩

/-- What a selector of the entity admits the entity admits, whatever is selected. -/
theorem Admits.of_selector {selection : Option (List String)} {resolveType : Bool} {a : Atom}
    (h : Admits ns config { e with selection := selection, resolveType := resolveType } a) :
    e.Admits ns config a := by
  cases a with
  | var => exact h
  | iri => exact h.imp_right Places.of_selector
  | tag | label => cases h

/-- A deletion writes atoms of its entity alone. -/
theorem compileDelete_admits {a a' : Allocator} {op : Operation}
    (h : e.compileDelete ns config a = .ok (op, a')) : op.All (e.Admits ns config) := by
  obtain ⟨f, b, hc, rfl⟩ := compileDelete_cases h
  -- the fragment is that of the selector, and what it places the entity places as well
  have hwithin : f.Within (e.Admits ns config) :=
    (Fragment.Within.compile hc).mono fun _ => Admits.of_selector
  have hnames : ∀ (b : Allocator) s, IsName (b.fresh s).1.name := fun b s => b.isName_fresh s
  exact ⟨List.forall_mem_singleton.mpr ⟨hwithin.subject, hnames _ _, hnames _ _⟩,
    List.forall_mem_nil _,
    List.forall_mem_cons.mpr ⟨⟨hwithin.subject, hnames _ _, hnames _ _⟩, hwithin.mandatory⟩,
    Sparql.groupAll_iff.mpr hwithin.filterPatterns⟩

end Entity

/-! ## Documents -/

/-- The atoms of a query are those of its projection, its body and its order. -/
theorem Sparql.Select.all_of {P : Atom → Prop} {distinct : Bool} {vars : List Var}
    {body : List Pattern} {modifiers : Sparql.Modifiers} (hvars : ∀ x ∈ vars, P (.var x))
    (hbody : ∀ p ∈ body, p.All P) (horder : ∀ k ∈ modifiers.orderBy, k.expression.All P) :
    (Select.of distinct vars body modifiers).All P := by
  obtain ⟨orderBy, limit, offset⟩ := modifiers
  refine ⟨fun vs hvs => ?_, Sparql.groupAll_iff.mpr hbody, Sparql.orderAll_iff.mpr horder⟩
  obtain rfl := Option.some.inj (Option.ite_none_left_eq_some.mp hvs).2
  exact hvars

namespace Collection

variable {ns : Namespaces} {config : Config} {c : Collection}

/-- The IRIs that can stand in the queries of a collection. -/
def Uses (ns : Namespaces) (config : Config) (c : Collection) (i : String) : Prop :=
  i ∈ Vocabulary.inQueries ∨ ∃ e ∈ c.entities, e.Places ns config i

/-- The keys by which a collection and its entities are ordered. -/
def orderKeys (c : Collection) : List OrderKey :=
  c.orderBy ++ c.entities.flatMap (·.orderBy)

/-- The variables that an order names. -/
def Orders (c : Collection) (x : Var) : Prop :=
  ∃ k ∈ c.orderKeys, ∃ name, Sparql.sharedName? k.key = some name ∧ x = .ofText name

/-- The atoms that can stand in the queries of a collection. -/
def Admits (ns : Namespaces) (config : Config) (c : Collection) : Atom → Prop
  | .var x => IsName x.name ∨ c.Orders x
  | .iri i => c.Uses ns config i
  | .tag _ | .label _ => False

/-- The queries and updates that a collection is compiled to. -/
inductive Compiles (ns : Namespaces) (config : Config) (c : Collection) : Document → Prop
  | select {options : CompileOptions} {plan : SelectPlan}
      (h : c.compileSelectWith ns config options = .ok plan) :
      Compiles ns config c (.select plan.query)
  | construct {plan : ConstructPlan} (h : c.compileConstruct ns config = .ok plan) :
      Compiles ns config c (.construct plan.query)
  | insert {u : Sparql.Update} (h : c.compileInsert ns = .ok u) : Compiles ns config c (.update u)
  | update {u : Sparql.Update} (h : c.compileUpdate ns = .ok u) : Compiles ns config c (.update u)
  | delete {u : Sparql.Update} (h : c.compileDelete ns config = .ok u) :
      Compiles ns config c (.update u)

/-- What an entity admits the collection admits. -/
theorem admits_of_entity {e : Entity} (he : e ∈ c.entities) (a : Atom)
    (h : e.Admits ns config a) : c.Admits ns config a := by
  cases a with
  | var => exact .inl h
  | iri => exact h.imp_right fun h => ⟨e, he, h⟩
  | tag | label => exact h

/-- Every part has atoms of the collection alone. -/
theorem compileParts_within {options : CompileOptions} {parts : List Part}
    (h : c.compileParts ns config options = .ok parts) :
    ∀ p ∈ parts, p.entity ∈ c.entities ∧ p.fragment.Within (c.Admits ns config) := by
  intro p hp
  obtain ⟨i, hi⟩ := List.mem_iff_getElem?.mp hp
  obtain ⟨he, b, b', -, hcompile⟩ :=
    Entity.compileEach_at (fun _ => True) (fun _ _ _ _ _ _ _ => trivial) trivial h hi
  have he := List.mem_of_getElem? he
  exact ⟨he, (Fragment.Within.compile hcompile).mono (admits_of_entity he)⟩

section

variable {P : Atom → Prop}

/-- The keys of an order are variables that it names, or variables of fragments. -/
theorem all_orderConditions {fragments : List Fragment} (h : ∀ f ∈ fragments, f.Within P)
    {keys : List OrderKey} (hkeys : ∀ k ∈ keys, ∀ name, Sparql.sharedName? k.key = some name →
      P (.var (.ofText name))) :
    ∀ k ∈ orderConditions fragments keys, k.expression.All P := by
  intro k hk
  obtain ⟨key, hkey, hk⟩ := List.mem_filterMap.mp hk
  obtain ⟨x, hx, rfl⟩ := Option.map_eq_some_iff.mp hk
  show P (.var x)
  unfold orderVar? at hx
  split at hx
  next name hname =>
    obtain rfl := Option.some.inj hx
    exact hkeys key hkey name hname
  next =>
    obtain ⟨f, hf, hx⟩ := List.exists_of_findSome?_eq_some hx
    exact (h f hf).var? hx

/-- The patterns of fragments have the atoms of the fragments. -/
theorem mergePatterns_within {fragments : List Fragment} (h : ∀ f ∈ fragments, f.Within P) :
    ∀ p ∈ mergePatterns fragments, p.All P := by
  have hplace : ∀ f ∈ fragments.filter (·.service.isNone), f.Within P := fun f hf =>
    h f (List.mem_of_mem_filter hf)
  have hservice : ∀ p ∈ fragments.filterMap servicePattern?, p.All P := by
    intro p hp
    obtain ⟨f, hf, hp⟩ := List.mem_filterMap.mp hp
    obtain ⟨endpoint, hendpoint, rfl⟩ := Option.map_eq_some_iff.mp hp
    exact ⟨(h f hf).service _ hendpoint, Sparql.groupAll_iff.mpr (h f hf).patterns⟩
  simp only [mergePatterns, List.forall_mem_append, List.forall_mem_flatMap]
  exact ⟨⟨⟨⟨Fragment.Within.tripleBlock (List.forall_mem_flatMap.mpr fun f hf =>
    (hplace f hf).mandatory), hservice⟩, fun f hf => (hplace f hf).optionalPatterns⟩,
    fun f hf => (hplace f hf).filterPatterns⟩, fun f hf => (hplace f hf).bindPatterns⟩

end

/-- The keys of the collection, and those of one of its entities. -/
theorem admits_of_orders {keys : List OrderKey} (hkeys : keys ⊆ c.orderKeys) :
    ∀ k ∈ keys, ∀ name, Sparql.sharedName? k.key = some name →
      c.Admits ns config (.var (.ofText name)) :=
  fun k hk name hname => .inr ⟨k, hkeys hk, name, hname, rfl⟩

/-- The keys that the collection is ordered by are among its order keys. -/
theorem orderBy_subset_orderKeys (c : Collection) : c.orderBy ⊆ c.orderKeys :=
  List.subset_append_left _ _

/-- The keys that an entity is ordered by are among the order keys of the collection. -/
theorem entity_orderBy_subset_orderKeys {e : Entity} (he : e ∈ c.entities) :
    e.orderBy ⊆ c.orderKeys := fun _ hk =>
  List.mem_append_right _ (List.mem_flatMap.mpr ⟨e, he, hk⟩)

/-- A sub-select has atoms of the collection alone. -/
theorem subselect?_within {part : Part} (he : part.entity ∈ c.entities)
    (h : part.fragment.Within (c.Admits ns config)) :
    ∀ p ∈ c.subselect? part, p.All (c.Admits ns config) := by
  intro p hp
  unfold subselect? at hp
  split at hp
  · cases hp
  · obtain ⟨modifiers, hmodifiers, rfl⟩ := Option.map_eq_some_iff.mp hp
    refine Sparql.Select.all_of h.boundVars h.patterns ?_
    unfold entityModifiers? at hmodifiers
    dsimp only at hmodifiers
    rw [Option.ite_none_left_eq_some] at hmodifiers
    obtain rfl := Option.some.inj hmodifiers.2
    refine all_orderConditions (List.forall_mem_singleton.mpr h) (admits_of_orders ?_)
    split
    · exact List.append_subset.mpr
        ⟨c.orderBy_subset_orderKeys, entity_orderBy_subset_orderKeys he⟩
    · exact entity_orderBy_subset_orderKeys he

/-- A SELECT query has atoms of its collection alone. -/
theorem compileSelectWith_admits {options : CompileOptions} {plan : SelectPlan}
    (h : c.compileSelectWith ns config options = .ok plan) :
    plan.query.All (c.Admits ns config) := by
  obtain ⟨parts, hparts, rfl⟩ := compileSelectWith_cases h
  have hwithin := compileParts_within hparts
  have hfragments : ∀ f ∈ parts.map (·.fragment), f.Within (c.Admits ns config) :=
    List.forall_mem_map.mpr fun p hp => (hwithin p hp).2
  refine Sparql.Select.all_of (fun x hx => ?_) (mergePatterns_within hfragments)
    (List.forall_mem_append.mpr ⟨?_, List.forall_mem_flatMap.mpr fun p hp => ?_⟩)
  · obtain ⟨f, hf, hx⟩ := List.mem_flatMap.mp (List.mem_eraseDups.mp hx)
    exact (hfragments f hf).projection x hx
  · exact all_orderConditions hfragments (admits_of_orders c.orderBy_subset_orderKeys)
  · exact all_orderConditions (List.forall_mem_singleton.mpr (hwithin p hp).2)
      (admits_of_orders (entity_orderBy_subset_orderKeys (hwithin p hp).1))

/-- A CONSTRUCT query has atoms of its collection alone. -/
theorem compileConstruct_admits {plan : ConstructPlan}
    (h : c.compileConstruct ns config = .ok plan) :
    (Document.construct plan.query).All (c.Admits ns config) := by
  obtain ⟨parts, hparts, rfl⟩ := compileConstruct_cases h
  have hwithin := compileParts_within hparts
  refine ⟨List.forall_mem_flatMap.mpr fun p hp => (hwithin p hp).2.template,
    Sparql.groupAll_iff.mpr (List.forall_mem_append.mpr ⟨fun p hp => ?_, ?_⟩), trivial⟩
  · obtain ⟨part, hpart, hp⟩ := List.mem_filterMap.mp hp
    exact subselect?_within (hwithin part hpart).1 (hwithin part hpart).2 p hp
  · refine mergePatterns_within (List.forall_mem_map.mpr fun part hpart => ?_)
    exact (hwithin part (List.mem_of_mem_filter hpart)).2

/-- The atoms of a request are those of the operation of each entity. -/
theorem update_admits {u : Sparql.Update}
    (h : ∀ op ∈ u, ∃ e ∈ c.entities, op.All (e.Admits ns config)) :
    (Document.update u).All (c.Admits ns config) := by
  intro op hop
  obtain ⟨e, he, hadmits⟩ := h op hop
  exact hadmits.mono (admits_of_entity he)

/-- **The atoms of a compiled query or update** are names and the variables that its order
names, IRIs of the vocabulary and those that an entity places there. -/
theorem compiles_admits {d : Document} (h : c.Compiles ns config d) :
    d.All (c.Admits ns config) := by
  cases h with
  | select h => exact compileSelectWith_admits h
  | construct h => exact compileConstruct_admits h
  | insert h =>
      refine update_admits fun op hop => ?_
      obtain ⟨e, he, hop⟩ := compileInsert_mem h op hop
      exact ⟨e, he, Entity.compileInsert_admits hop⟩
  | update h =>
      refine update_admits fun op hop => ?_
      obtain ⟨e, he, a, a', hop⟩ := Entity.operations_mem h op hop
      exact ⟨e, he, Entity.compileUpdate_admits hop⟩
  | delete h =>
      refine update_admits fun op hop => ?_
      obtain ⟨e, he, a, a', hop⟩ := Entity.operations_mem h op hop
      exact ⟨e, he, Entity.compileDelete_admits hop⟩

end Collection

end ObjectGraph
