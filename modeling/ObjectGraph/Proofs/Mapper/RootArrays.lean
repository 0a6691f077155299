import ObjectGraph.Proofs.Compile.Deferral
import ObjectGraph.Proofs.Decode.Nesting
import ObjectGraph.Proofs.Mapper.Subjects

/-!
# Which arrays are fetched

Every entity of a collection leaves its arrays to follow-ups.  A search asks them for its root
alone: each array of the root for each object whose resource it can name, and the object has the
values under the key (`root_arrays_fetched`).  No query of a search is about an array of another
entity, so the objects nested in those of the root are without theirs
(`nested_array_forgotten`).
-/

namespace ObjectGraph

open Json (Value Object)
open Sparql (Var Term)

/-! ## The values of a follow-up -/

namespace FollowUp

variable {ns : Namespaces} {parent : Entity} {key : String} {m : Mapping} {x : Var}

/-- What rows bind a variable to, as values of a kind, each once. -/
def boundValues (ns : Namespaces) (kind : Kind) (x : Var) (rows : List Row) : List Value :=
  (rows.filterMap fun row => (row.get? x.name).map (Decode.binding ns (some kind))).eraseDupsBy
    fun v w => w.same v

/-- A follow-up reads the values of its key as the property of the parent. -/
theorem knownKind?_entityFor {p : PropertySchema} (hkey : Schema.isKeyword key = false)
    (hproperty : parent.schema.property? key = some p) (id : String) :
    Decode.knownKind? (entityFor parent key id) key = some p.kind := by
  have hown : (entityFor parent key id).schema.property? key = some p :=
    property?_schema hproperty
  have hknown : (entityFor parent key id).knows key = true := by
    simp only [Entity.knows, Schema.knows, Schema.hasProperty, Assoc.contains, Bool.or_eq_true]
    exact .inr (Option.isSome_iff_exists.mpr ⟨p, hown⟩)
  simp [Decode.knownKind?, hknown, Schema.kindOf_of_property hkey hown]

/-- A row of a follow-up is an object with the one key, if the row binds the one variable. -/
theorem rowObject_fragmentFor {p : PropertySchema} (hkey : Schema.isKeyword key = false)
    (hproperty : parent.schema.property? key = some p) (id : String) (row : Row) :
    Decode.rowObject ns [⟨entityFor parent key id, fragmentFor ns parent key id m x⟩] row =
      ((row.get? x.name).map fun b => (key, Decode.binding ns (some p.kind) b)).toList := by
  obtain ⟨hid, htype⟩ : key ≠ "@id" ∧ key ≠ "@type" := by simpa [Schema.isKeyword] using hkey
  have hkind := knownKind?_entityFor hkey hproperty id
  -- the identity is fixed but not selected, and no type is asked for
  have hpinned : ∀ object, Decode.enterPinned ns
      ⟨entityFor parent key id, fragmentFor ns parent key id m x⟩ object = object := by
    intro object
    simp [Decode.enterPinned, entityFor, fragmentFor, Ne.symm hid]
  have hclass : ∀ object, Decode.enterClass ns
      ⟨entityFor parent key id, fragmentFor ns parent key id m x⟩ object = object := by
    intro object
    simp [Decode.enterClass, Decode.typeRequested, entityFor, fragmentFor, Ne.symm htype]
  have hprops : (fragmentFor ns parent key id m x).props.entries = [(key, x)] := rfl
  have hcomputed : (fragmentFor ns parent key id m x).bindVars.entries = [] := rfl
  simp only [Decode.rowObject, List.map_singleton, Decode.merge, Decode.mergeFrom,
    Decode.entityObject, hclass, hpinned, Decode.enterBound, hprops, hcomputed, List.foldl]
  cases hrow : row.get? x.name with
  | none => rfl
  | some b => simp [Assoc.insert, hkind]

/-- The values under the key in such objects are what the rows bind the variable to. -/
theorem filterMap_solutions {p : PropertySchema} (hkey : Schema.isKeyword key = false)
    (hproperty : parent.schema.property? key = some p) (id : String) (rows : List Row) :
    (Decode.solutions ns [⟨entityFor parent key id, fragmentFor ns parent key id m x⟩]
        rows).filterMap (·.get? key) =
      rows.filterMap fun row => (row.get? x.name).map (Decode.binding ns (some p.kind)) := by
  unfold Decode.solutions
  rw [List.filterMap_map]
  congr 1
  funext row
  rw [Function.comp_apply, rowObject_fragmentFor hkey hproperty]
  cases row.get? x.name with
  | none => rfl
  | some b => simp [Assoc.get?]

end FollowUp

/-! ## Errands that were run -/

/-- What a search did for an array of a resource: it issued a follow-up with the resource as its
subject, the endpoint answered with rows, and the object has values under the key.  If the key
has a predicate, the follow-up asks for nothing else, and the values are all those that the rows
bind its variable to. -/
structure Mapper.Fetched (m : Mapper) (params : Object) (e : Entity) (key iri : String)
    (log : List IssuedQuery) (object : Object) (u : FollowUp) (rows : List Row)
    (values : List Value) : Prop where
  about : u.plan.parts.map (·.fragment.subject) = [.iri iri]
  asked : ⟨.select, u.plan.text m.ns m.config, params⟩ ∈ log
  answered : m.endpoint.select (u.plan.text m.ns m.config) params = .ok rows
  entered : object.get? key = some (.arr values)
  whole : ∀ p, e.mapping? m.ns key = some p → ∃ x, u.AsksOnly (.iri iri) p x ∧
    values = FollowUp.boundValues m.ns (e.schema.kindOf key) x rows

namespace Errand

variable {m : Mapper} {params : Object} {e : Errand} {log : List IssuedQuery} {object : Object}

/-- The values of an errand for an array are those that the answer binds the one variable of the
follow-up to. -/
theorem valuesIn_of_deferred (m : Mapper) (hdeferred : e.root.isDeferred {} e.key = true)
    {p : Mapping} (hmapping : e.root.mapping? m.ns e.key = some p) :
    ∃ x, (e.followUp m.ns m.config).AsksOnly (.iri (m.ns.expand e.subject)) p x ∧
      ∀ rows, e.valuesIn m rows =
        FollowUp.boundValues m.ns (e.root.schema.kindOf e.key) x rows := by
  obtain ⟨hkey, property, hproperty⟩ := Entity.property_of_isDeferred hdeferred
  obtain ⟨u, x, hcompile, hparts, hasks⟩ :=
    FollowUp.compile_deferred m.config hdeferred hmapping e.subject
  obtain rfl := Except.ok.inj ((e.compile_followUp m.ns m.config).symm.trans hcompile)
  refine ⟨x, hasks, fun rows => ?_⟩
  unfold valuesIn FollowUp.boundValues
  rw [hparts, FollowUp.filterMap_solutions hkey hproperty,
    Schema.kindOf_of_property hkey hproperty]

/-- An errand that was run for an object. -/
theorem fetched (hdeferred : e.root.isDeferred {} e.key = true)
    (hasked : e.query m params ∈ log) {rows : List Row} (hrows : e.answer m params = .ok rows)
    (hentered : object.get? e.key = some (.arr (e.valuesIn m rows))) :
    m.Fetched params e.root e.key (m.ns.expand e.subject) log object
      (e.followUp m.ns m.config) rows (e.valuesIn m rows) := by
  obtain ⟨u, part, hcompile, hparts, hsubject⟩ :=
    FollowUp.compile_spec m.ns m.config e.root e.key e.subject
  obtain rfl := Except.ok.inj ((e.compile_followUp m.ns m.config).symm.trans hcompile)
  refine ⟨?_, hasked, hrows, hentered, fun p hmapping => ?_⟩
  · rw [hparts, List.map_singleton, hsubject]
  · obtain ⟨x, hasks, hvalues⟩ := valuesIn_of_deferred m hdeferred hmapping
    exact ⟨x, hasks, hvalues rows⟩

end Errand

namespace Mapper

variable {m : Mapper} {request : CollectionRequest} {c : Collection} {root : Part}
  {others : List Part}

/-- Whether each array of the root was fetched for a resource. -/
def FetchedAll (m : Mapper) (params : Object) (root : Part) (iri : String)
    (log : List IssuedQuery) (object : Object) : Prop :=
  ∀ key ∈ root.fragment.arrays, ∃ u rows values,
    m.Fetched params root.entity key iri log object u rows values

/-- What became of an object that was found with its subject: the arrays of the root were fetched
for the subject, expanded, if it is an IRI, and everything else is as it was found. -/
structure Completed (m : Mapper) (params : Object) (root : Part) (log : List IssuedQuery)
    (found : Option String × Object) (object : Object) : Prop where
  fetched : ∀ id, found.1 = some id → isBlankId id = false →
    m.FetchedAll params root (m.ns.expand id) log object
  kept : (object.filter fun entry => !root.fragment.arrays.contains entry.1) =
    found.2.filter fun entry => !root.fragment.arrays.contains entry.1

/-- The errands of an object are all arrays of the root, or none. -/
theorem forObject_cases (root : Part) (others : List Part) (found : Option String × Object) :
    (∃ id, found.1 = some id ∧ isBlankId id = false ∧
      Errand.forObject (root :: others) found = root.fragment.arrays.map (⟨root.entity, id, ·⟩)) ∨
    ((∀ id, found.1 = some id → isBlankId id = true) ∧
      Errand.forObject (root :: others) found = []) := by
  obtain ⟨subject, object⟩ := found
  cases subject with
  | none => exact .inr ⟨nofun, rfl⟩
  | some id =>
      have hlabel := isBlankId_iff id
      cases hblank : isBlankId id with
      | false =>
          rw [hblank] at hlabel
          exact .inl ⟨id, rfl, hblank, by simp [Errand.forObject, ← hlabel]⟩
      | true =>
          refine .inr ⟨fun _ hid => ?_, by simp [Errand.forObject, hlabel.mp hblank]⟩
          obtain rfl := Option.some.inj hid
          exact hblank

/-- An object whose errands were all run is completed. -/
theorem completed_of_filled {params : Object} {log : List IssuedQuery}
    {found : Option String × Object} {object : Object}
    (hdeferred : ∀ key ∈ root.fragment.arrays, root.entity.isDeferred {} key = true)
    (hasked : ∀ e ∈ Errand.forObject (root :: others) found, e.query m params ∈ log)
    (h : Filled m params (Errand.forObject (root :: others) found) found.2 object) :
    m.Completed params root log found object := by
  rcases forObject_cases root others found with ⟨id, hid, hblank, herrands⟩ | ⟨hblank, herrands⟩
  · rw [herrands] at hasked h
    refine ⟨fun id' hid' _ key hkey => ?_, ?_⟩
    · obtain rfl := Option.some.inj (hid.symm.trans hid')
      have hmem : (⟨root.entity, id, key⟩ : Errand) ∈
          root.fragment.arrays.map (⟨root.entity, id, ·⟩) := List.mem_map_of_mem hkey
      obtain ⟨rows, hrows, hentered⟩ := h.values _ hmem
      exact ⟨_, rows, _, Errand.fetched (hdeferred key hkey) (hasked _ hmem) hrows hentered⟩
    · have hkeys : (root.fragment.arrays.map (⟨root.entity, id, ·⟩ : String → Errand)).map
          (·.key) = root.fragment.arrays := by
        simp [Function.comp_def]
      have hothers := h.others
      rwa [hkeys] at hothers
  · rw [herrands] at h
    refine ⟨fun id hid hiri => ?_, ?_⟩
    · rw [hblank id hid] at hiri
      cases hiri
    · have hsame : object = found.2 := by simpa using h.others
      rw [hsame]

/-- A search that comes to objects has completed each of them, and asked behind its main query
about arrays of the root only. -/
theorem completed_of_answered {s : Search} {objects : List Object} {log : List IssuedQuery}
    (h : Answered m (.ok s) (.ok objects) log) (hparts : s.parts = root :: others)
    (hdeferred : ∀ key ∈ root.fragment.arrays, root.entity.isDeferred {} key = true) :
    ∃ found, s.decoded = .ok found ∧
      List.Forall₂ (m.Completed s.collection.options root log) found objects ∧
      ∀ q ∈ log.tail, ∃ key ∈ root.fragment.arrays, ∃ iri,
        m.Asks s.collection.options root.entity key iri q := by
  have hroot : ∀ q ∈ log.tail, ∃ key ∈ root.fragment.arrays, ∃ iri,
      m.Asks s.collection.options root.entity key iri q := by
    intro q hq
    obtain ⟨found, -, d, -, e, he, rfl⟩ := issued_errand h hq
    obtain ⟨root', _, hparts', hentity, hkey, -⟩ := mem_forObject he
    obtain ⟨rfl, -⟩ := List.cons.inj (hparts.symm.trans hparts')
    exact ⟨e.key, hkey, m.ns.expand e.subject, hentity ▸ asks_query e _⟩
  cases h with
  | @filled _ found _ hfound hanswers hobjects =>
      refine ⟨found, hfound, ?_, hroot⟩
      rw [hparts] at hobjects ⊢
      have hasked : ∀ d ∈ found, ∀ e ∈ Errand.forObject (root :: others) d,
          e.query m s.collection.options ∈ s.main ::
            (found.flatMap (Errand.forObject (root :: others))).map
              (·.query m s.collection.options) := by
        intro d hd e he
        exact List.mem_cons_of_mem _ (List.mem_map_of_mem (List.mem_flatMap.mpr ⟨d, hd, he⟩))
      refine List.Forall₂.imp (fun d object hpair => ?_)
        ((List.forall₂_and_left _ _).mpr ⟨hasked, hobjects⟩)
      exact completed_of_filled hdeferred hpair.1 hpair.2

/-- The root of a main query lists keys that are deferred. -/
theorem isDeferred_of_mem_arrays
    (hcompiled : c.compileParts m.ns m.config {} = .ok (root :: others)) :
    ∀ key ∈ root.fragment.arrays, root.entity.isDeferred {} key = true := by
  intro key hkey
  obtain ⟨_, _, hcompile⟩ := Entity.compileEach_part hcompiled root List.mem_cons_self
  rw [Entity.compile_arrays hcompile] at hkey
  exact (List.mem_filter.mp hkey).2

/-- **Which arrays are fetched.**  A search that comes to objects has fetched every array of its
root for every object whose resource it can name: a row's, if the root shows its identity and the
namespace map returns it, and a node's, with the IRI expanded.  The object has the values under
the key, and is otherwise what the answer to the main query was decoded to.  Behind its main query
a search asks about arrays of the root only. -/
theorem root_arrays_fetched (m : Mapper) (request : CollectionRequest) {c : Collection}
    (hbuild : Collection.build m.catalog m.config request = .ok c) :
    (∀ plan root others rows objects log, c.compileSelect m.ns m.config = .ok plan →
      plan.parts = root :: others →
      m.endpoint.select (plan.text m.ns m.config) c.options = .ok rows →
      (m.selectObjects request).results = (.ok objects, log) →
      List.Forall₂ (fun row object =>
          m.Completed c.options root log (m.subjectOf (Decode.rowObject m.ns plan.parts row),
            Decode.rowObject m.ns plan.parts row) object ∧
          ∀ iri, root.ShowsIdentity → root.subjectIn? row = some iri → m.ns.Returns iri →
            isBlankId (m.ns.expand (m.ns.abbreviate iri)) = false →
            m.FetchedAll c.options root iri log object)
        rows objects ∧
      ∀ q ∈ log.tail, ∃ key ∈ root.fragment.arrays, ∃ iri,
        m.Asks c.options root.entity key iri q) ∧
    (∀ plan root others quads objects log, c.compileConstruct m.ns m.config = .ok plan →
      plan.parts = root :: others →
      m.endpoint.construct (plan.text m.ns m.config) c.options = .ok quads →
      (m.constructObjects request).results = (.ok objects, log) →
      (∃ found, Decode.graphNodes m.ns m.config c plan.parts quads = .ok found ∧
        List.Forall₂ (fun d object => m.Completed c.options root log (some d.1, d.2) object)
          found objects) ∧
      ∀ q ∈ log.tail, ∃ key ∈ root.fragment.arrays, ∃ iri,
        m.Asks c.options root.entity key iri q) := by
  constructor
  · intro plan root others rows objects log hplan hparts hrows hresults
    have hcompiled := Collection.compileParts_of_select hplan
    have hsearch := outcome_answered m (m.selection request)
    rw [← selectObjects_results, hresults] at hsearch
    simp only [selection, searchBy, hbuild, hplan, hrows, bind, Except.bind] at hsearch
    rw [hparts] at hcompiled
    obtain ⟨found, hfound, hobjects, hroot⟩ :=
      completed_of_answered hsearch hparts (isDeferred_of_mem_arrays hcompiled)
    obtain rfl := Except.ok.inj hfound
    refine ⟨?_, hroot⟩
    simp only [Decode.solutions, List.map_map, List.forall₂_map_left_iff, Function.comp_apply,
      ← subjectOf_eq] at hobjects
    refine List.Forall₂.imp (fun row object h => ⟨h, fun iri hshows hiri hreturns hblank => ?_⟩)
      hobjects
    have hsubject := subjectOf_of_shows hcompiled hshows hiri
    rw [← hparts] at hsubject
    have hfetched := h.fetched _ hsubject hblank
    rwa [hreturns] at hfetched
  · intro plan root others quads objects log hplan hparts hquads hresults
    have hcompiled := Collection.compileParts_of_construct hplan
    have hsearch := outcome_answered m (m.construction request)
    rw [← constructObjects_results, hresults] at hsearch
    simp only [construction, searchBy, hbuild, hplan, hquads, bind, Except.bind] at hsearch
    rw [hparts] at hcompiled
    obtain ⟨found, hfound, hobjects, hroot⟩ :=
      completed_of_answered hsearch hparts (isDeferred_of_mem_arrays hcompiled)
    refine ⟨?_, hroot⟩
    dsimp only at hfound
    split at hfound
    next => cases hfound
    next =>
      cases hroots : Decode.graphNodes m.ns m.config c plan.parts quads with
      | error x => simp [hroots, Except.map] at hfound
      | ok roots =>
          rw [hroots] at hfound
          obtain rfl := Except.ok.inj hfound
          exact ⟨roots, rfl, List.forall₂_map_left_iff.mp hobjects⟩

/-- The tags of the thing are fetched. -/
theorem root_arrays_fetched_taggedThings :
    ∃ c plan root object log, Collection.build ⟨[]⟩ {} taggedThings = .ok c ∧
      c.compileSelect .exampleOrg {} = .ok plan ∧ plan.parts = [root] ∧
      root.fragment.arrays = ["tags"] ∧
      ((overThing .exampleOrg "http://example.org/t1").selectObjects taggedThings).results =
        (.ok [object], log) ∧
      object = [("@id", .str "ex:t1"), ("tags", .arr [.str "tag"])] ∧
      (overThing .exampleOrg "http://example.org/t1").FetchedAll c.options root
        "http://example.org/t1" log object := by
  obtain ⟨c, plan, root, object, log, hbuild, hplan, hparts, harrays, hsubject, hshows, hresults,
      hobject⟩ :
      ∃ c plan root object log, Collection.build ⟨[]⟩ {} taggedThings = .ok c ∧
        c.compileSelect .exampleOrg {} = .ok plan ∧ plan.parts = [root] ∧
        root.fragment.arrays = ["tags"] ∧
        root.subjectIn? (thingRow "http://example.org/t1") = some "http://example.org/t1" ∧
        root.ShowsIdentity ∧
        ((overThing .exampleOrg "http://example.org/t1").selectObjects taggedThings).results =
          (.ok [object], log) ∧
        object = [("@id", .str "ex:t1"), ("tags", .arr [.str "tag"])] :=
    ⟨_, _, _, _, _, rfl, rfl, rfl, rfl, rfl, .inl ⟨_, rfl⟩, rfl, by decide +kernel⟩
  have hreturns : Namespaces.exampleOrg.Returns "http://example.org/t1" := by
    unfold Namespaces.Returns
    decide +kernel
  have hiri : isBlankId (Namespaces.exampleOrg.expand
      (Namespaces.exampleOrg.abbreviate "http://example.org/t1")) = false := by decide +kernel
  obtain ⟨hobjects, -⟩ := (root_arrays_fetched (overThing .exampleOrg "http://example.org/t1")
    taggedThings hbuild).1 plan root [] [thingRow "http://example.org/t1"] [object] log hplan
      hparts rfl hresults
  cases hobjects with
  | cons h _ =>
      exact ⟨c, plan, root, object, log, hbuild, hplan, hparts, harrays, hresults, hobject,
        h.2 _ hshows hsubject hreturns hiri⟩

/-- A search whose root has no array issues its main query alone and comes to what that is
decoded to, whatever arrays other entities have. -/
theorem answered_of_no_arrays {s : Search} {r : Except MapperError (List Object)}
    {log : List IssuedQuery} (h : Answered m (.ok s) r log) (hparts : s.parts = root :: others)
    (harrays : root.fragment.arrays = []) {found : List (Option String × Object)}
    (hfound : s.decoded = .ok found) : r = .ok (found.map (·.2)) ∧ log = [s.main] := by
  have hnone : Errand.forObject s.parts = fun _ => [] := by
    funext d
    rw [hparts]
    rcases forObject_cases root others d with ⟨_, -, -, herrands⟩ | ⟨-, herrands⟩
    · rw [herrands, harrays, List.map_nil]
    · exact herrands
  cases h with
  | unanswered h =>
      rw [hfound] at h
      cases h
  | @filled _ found' objects hfound' _ hobjects =>
      obtain rfl := Except.ok.inj (hfound.symm.trans hfound')
      simp only [hnone] at hobjects
      have hsame : List.Forall₂ (fun d object => d.2 = object) found objects :=
        List.Forall₂.imp (fun d object hfilled => by simpa using hfilled.others.symm) hobjects
      refine ⟨?_, by simp [hnone]⟩
      rw [← List.forall₂_map_left_iff (R := (· = ·)), List.forall₂_eq_eq_eq] at hsame
      rw [hsame]
  | @cut _ found' before behind e _ hfound' herrands =>
      rw [hnone, List.flatMap_eq_nil_iff.mpr fun _ _ => rfl] at herrands
      exact (List.append_ne_nil_of_right_ne_nil before (List.cons_ne_nil e behind)
        herrands.symm).elim

/-- A request for the instances of a schema under conditions. -/
def requestFor (schema : Schema) (conditions : Object) : EntityRequest where
  schema := .inline schema
  conditions := conditions
  selection := none
  data := []
  resolveType := none
  orderBy := none
  limit := none
  offset := none
  distinct := none
  service := none

/-- A request for tasks with their projects, whose tags are an array. -/
def tasksOfProjects : CollectionRequest where
  id := none
  entities :=
    [requestFor
      { targetClass := some "ex:Task"
        context := [("project", .str "ex:project")]
        properties := [("project", { format := some "iri" })] }
      [("project", .str "?p")],
     requestFor
      { targetClass := some "ex:Project"
        context := [("tags", .str "ex:tag")]
        properties := [("tags", { type := some "array" })] }
      [("@id", .str "?p")]]
  orderBy := none
  limit := none
  offset := none
  distinct := none
  options := []

/-- A mapper over an endpoint that knows a task, its project and the tag of the project. -/
def overTask : Mapper where
  endpoint :=
    { select := fun _ _ => .ok [[("tags0", .literal "red")]]
      construct := fun _ _ =>
        .ok [Decode.quadOf "http://example.org/t" Vocabulary.rdfType "http://example.org/Task",
          Decode.quadOf "http://example.org/t" "http://example.org/project" "http://example.org/p",
          Decode.quadOf "http://example.org/p" Vocabulary.rdfType "http://example.org/Project"]
      update := fun _ _ => .ok .null }
  catalog := ⟨[]⟩
  ns := .exampleOrg
  config := {}

/-- The tags of the project are left to a follow-up that the endpoint would answer, and it is not
issued: the project is nested in the task without them. -/
theorem nested_array_forgotten :
    ∃ c plan task project object log q,
      Collection.build overTask.catalog overTask.config tasksOfProjects = .ok c ∧
      c.compileConstruct overTask.ns overTask.config = .ok plan ∧
      plan.parts = [task, project] ∧ project.fragment.arrays = ["tags"] ∧
      overTask.Asks c.options project.entity "tags" "http://example.org/p" q ∧
      overTask.endpoint.select q.text q.params = .ok [[("tags0", .literal "red")]] ∧
      (overTask.constructObjects tasksOfProjects).results = (.ok [object], log) ∧
      object = [("@id", .str "ex:t"), ("project", .obj [("@id", .str "ex:p")])] ∧ q ∉ log := by
  obtain ⟨c, plan, task, project, hbuild, hplan, hparts, harrays, hnone⟩ :
      ∃ c plan task project,
        Collection.build overTask.catalog overTask.config tasksOfProjects = .ok c ∧
        c.compileConstruct overTask.ns overTask.config = .ok plan ∧
        plan.parts = [task, project] ∧ project.fragment.arrays = ["tags"] ∧
        task.fragment.arrays = [] :=
    ⟨_, _, _, _, rfl, rfl, rfl, rfl, rfl⟩
  have hdecoded : ((overTask.construction tasksOfProjects).toOption.bind (·.decoded.toOption)) =
      some [(some "http://example.org/t",
        [("@id", .str "ex:t"), ("project", .obj [("@id", .str "ex:p")])])] := by
    decide +kernel
  have hsearch := outcome_answered overTask (overTask.construction tasksOfProjects)
  rw [← constructObjects_results] at hsearch
  obtain ⟨s, hs, hsparts, hmain⟩ : ∃ s, overTask.construction tasksOfProjects = .ok s ∧
      s.parts = plan.parts ∧ s.main.kind = .construct := by
    simp only [construction, searchBy, hbuild, hplan, bind, Except.bind]
    exact ⟨_, rfl, rfl, rfl⟩
  rw [hs] at hsearch hdecoded
  cases hfound : s.decoded with
  | error x => simp [hfound, Except.toOption] at hdecoded
  | ok found =>
      obtain rfl : found = _ := by simpa [hfound, Except.toOption] using hdecoded
      obtain ⟨hobjects, hlog⟩ :=
        answered_of_no_arrays hsearch (hsparts.trans hparts) hnone hfound
      let e : Errand := ⟨project.entity, "http://example.org/p", "tags"⟩
      have hexpand : overTask.ns.expand "http://example.org/p" = "http://example.org/p" := by
        decide +kernel
      have hasks := asks_query (m := overTask) e c.options
      rw [hexpand] at hasks
      refine ⟨c, plan, task, project, _, _, e.query overTask c.options, hbuild, hplan, hparts,
        harrays, hasks, rfl, Prod.ext hobjects hlog, rfl, fun hmem => ?_⟩
      have hkind := congrArg IssuedQuery.kind (List.mem_singleton.mp hmem)
      rw [hmain] at hkind
      cases hkind

end Mapper

end ObjectGraph
