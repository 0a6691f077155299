import Mathlib.Data.List.Forall2
import ObjectGraph.Mapper
import ObjectGraph.Proofs.Compile.FollowUp
import ObjectGraph.Proofs.Json.Equality

/-!
# Runs that enter the values of array keys

After its main query a search is a list of errands: for each object in order that
has an IRI, each array key of the root.  The IRI of a row's object is what the text
under its `@id` stands for; a node of a graph has its own.  A run pursues them one after the other
(`Pursues`): either all are answered, each asked exactly once, or the first that
fails ends the run and nothing is asked behind it.  Runs that pursue errands
sequence (`Pursues.bind`), which carries one follow-up query over the keys of an
object and from there over the objects.

What an object gains on the way is `Filled`: under the key of each errand the
distinct values of the answer to it, and nothing else.  The main statement is
`searches_answered`; `searches_answered_things` shows three runs with follow-ups.
-/

namespace ObjectGraph

open Json (Value Object)

/-! ## Runs from a record -/

namespace Run

variable {α β : Type}

/-- What a run comes to behind the queries on record. -/
def after (r : Run α) (log : List IssuedQuery) : Except MapperError α × List IssuedQuery :=
  StateT.run (ExceptT.run r) log

/-- At the start there is no query on record. -/
theorem results_eq (r : Run α) : r.results = r.after [] := rfl

@[simp] theorem after_pure (a : α) (log : List IssuedQuery) :
    after (pure a : Run α) log = (.ok a, log) := rfl

@[simp] theorem after_throw (e : MapperError) (log : List IssuedQuery) :
    after (throw e : Run α) log = (.error e, log) := rfl

/-- A run goes on from what it came to, with its queries on record. -/
theorem after_bind (r : Run α) (f : α → Run β) (log : List IssuedQuery) :
    after (r >>= f) log =
      match after r log with
      | (.ok a, log') => after (f a) log'
      | (.error e, log') => (.error e, log') := by
  show StateT.run (ExceptT.run (r >>= f)) log =
    match StateT.run (ExceptT.run r) log with
    | (.ok a, log') => after (f a) log'
    | (.error e, log') => (.error e, log')
  rw [ExceptT.run_bind, StateT.run_bind]
  cases StateT.run (ExceptT.run r) log with
  | mk x log' => cases x <;> rfl

/-- A query goes on record whatever its answer is. -/
@[simp] theorem after_issue (kind : QueryKind) (text : String) (params : Object)
    (answer : Except ClientError α) (log : List IssuedQuery) :
    after (issue kind text params answer) log =
      (answer.mapError .client, log ++ [⟨kind, text, params⟩]) := by
  cases answer <;> rfl

end Run

/-! ## Errands -/

/-- An array key of a resource, whose values are to be asked for. -/
structure Errand where
  root : Entity
  subject : String
  key : String

namespace Errand

variable (m : Mapper) (params : Object) (e : Errand)

/-- The follow-up query of an errand, which is always there. -/
def followUp (ns : Namespaces) (config : Config) (e : Errand) : FollowUp :=
  match h : FollowUp.compile ns config e.root e.key e.subject with
  | .ok f => f
  | .error _ => absurd h (by
      obtain ⟨f, _, hf, _⟩ := FollowUp.compile_spec ns config e.root e.key e.subject
      simp [hf])

/-- The follow-up of an errand is compiled, whatever its entity. -/
theorem compile_followUp (ns : Namespaces) (config : Config) :
    FollowUp.compile ns config e.root e.key e.subject = .ok (e.followUp ns config) := by
  unfold followUp
  split
  next f h => exact h
  next x h =>
    obtain ⟨f, _, hf, _⟩ := FollowUp.compile_spec ns config e.root e.key e.subject
    simp [hf] at h

/-- The query of an errand as it is issued. -/
def query : IssuedQuery :=
  ⟨.select, (e.followUp m.ns m.config).plan.text m.ns m.config, params⟩

/-- What the endpoint answers to the query of an errand. -/
def answer : Except ClientError (List Row) :=
  m.endpoint.select (e.query m params).text params

/-- The distinct values of the key in an answer, in the order in which they first
come. -/
def valuesIn (rows : List Row) : List Value :=
  ((Decode.solutions m.ns (e.followUp m.ns m.config).plan.parts rows).filterMap
    (·.get? e.key)).eraseDupsBy fun v w => w.same v

/-- The errands for an object that was found with its subject: the array keys of the
root, if the subject is an IRI and not the label of a blank node. -/
def forObject (parts : List Part) (found : Option String × Object) : List Errand :=
  match parts, found.1 with
  | root :: _, some id =>
    if ['_', ':'] <+: id.toList then [] else root.fragment.arrays.map (⟨root.entity, id, ·⟩)
  | _, _ => []

end Errand

/-- The identities that a run passes over are the labels of blank nodes. -/
theorem Mapper.isBlankId_iff (id : String) :
    Mapper.isBlankId id = true ↔ ['_', ':'] <+: id.toList := by
  unfold Mapper.isBlankId
  split
  next rest hid => simp [hid]
  next hother =>
    refine iff_of_false Bool.false_ne_true ?_
    rintro ⟨rest, hid⟩
    exact hother rest hid.symm

section

variable {α β : Type} {m : Mapper} {params : Object}

/-- A run that pursues errands: it asks all of them in order and comes to something
good, or it asks them up to the first that fails and ends with that failure. -/
def Pursues (m : Mapper) (params : Object) (errands : List Errand) (good : α → Prop)
    (r : Run α) : Prop :=
  ∀ log,
    ((∀ e ∈ errands, ∃ rows, e.answer m params = .ok rows) ∧
      ∃ a, r.after log = (.ok a, log ++ errands.map (·.query m params)) ∧ good a) ∨
    ∃ before e behind failure, errands = before ++ e :: behind ∧
      (∀ d ∈ before, ∃ rows, d.answer m params = .ok rows) ∧
      e.answer m params = .error failure ∧
      r.after log =
        (.error (.client failure), log ++ (before ++ [e]).map (·.query m params))

/-- Without errands nothing is asked. -/
theorem Pursues.pure {good : α → Prop} {a : α} (h : good a) :
    Pursues m params [] good (pure a) := by
  intro log
  exact .inl ⟨by simp, a, by simp, h⟩

/-- Runs that pursue errands do so one behind the other. -/
theorem Pursues.bind {errands errands' : List Errand} {good : α → Prop} {good' : β → Prop}
    {r : Run α} {f : α → Run β} (hr : Pursues m params errands good r)
    (hf : ∀ a, good a → Pursues m params errands' good' (f a)) :
    Pursues m params (errands ++ errands') good' (r >>= f) := by
  intro log
  rw [Run.after_bind]
  rcases hr log with ⟨hall, a, hafter, hgood⟩ |
      ⟨before, e, behind, failure, rfl, hbefore, he, hafter⟩
  · rw [hafter]
    rcases hf a hgood (log ++ errands.map (·.query m params)) with
      ⟨hall', b, hafter', hgood'⟩ | ⟨before, e, behind, failure, rfl, hbefore, he, hafter'⟩
    · refine .inl ⟨?_, b, by simpa using hafter', hgood'⟩
      intro e he
      exact (List.mem_append.mp he).elim (hall e) (hall' e)
    · refine .inr ⟨errands ++ before, e, behind, failure, by simp, ?_, he,
        by simpa using hafter'⟩
      intro d hd
      exact (List.mem_append.mp hd).elim (hall d) (hbefore d)
  · exact .inr ⟨before, e, behind ++ errands', failure, by simp, hbefore, he,
      by rw [hafter]⟩

/-- A run that comes to something good comes to something that is good in a wider sense. -/
theorem Pursues.mono {errands : List Errand} {good good' : α → Prop} {r : Run α}
    (h : Pursues m params errands good r) (hgood : ∀ a, good a → good' a) :
    Pursues m params errands good' r := by
  intro log
  rcases h log with ⟨hall, a, hafter, ha⟩ | hfailed
  · exact .inl ⟨hall, a, hafter, hgood a ha⟩
  · exact .inr hfailed

/-- Fetching the values of a key is one errand. -/
theorem fetchArray_pursues (e : Errand) :
    Pursues m params [e]
      (fun v => ∃ rows, e.answer m params = .ok rows ∧ v = .arr (e.valuesIn m rows))
      (m.fetchArray e.root params e.subject e.key) := by
  intro log
  have hafter : (m.fetchArray e.root params e.subject e.key).after log =
      match e.answer m params with
      | .ok rows => (.ok (.arr (e.valuesIn m rows)), log ++ [e.query m params])
      | .error failure => (.error (.client failure), log ++ [e.query m params]) := by
    unfold Mapper.fetchArray
    rw [e.compile_followUp]
    show Run.after (Run.issue _ _ _ (e.answer m params) >>= _) log = _
    rw [Run.after_bind, Run.after_issue]
    cases e.answer m params with
    | error failure => rfl
    | ok rows =>
        simp only [Except.mapError, FollowUp.collect, Json.Value.foldl_addNew]
        rfl
  cases hanswer : e.answer m params with
  | ok rows =>
      rw [hanswer] at hafter
      exact .inl ⟨by simp [hanswer], _, by simpa using hafter, rows, rfl, rfl⟩
  | error failure =>
      rw [hanswer] at hafter
      exact .inr ⟨[], e, [], failure, rfl, by simp, hanswer, by simpa using hafter⟩

/-! ## Objects -/

/-- An object after errands: under the key of each are the distinct values of the
answer to it, and all other entries are as before. -/
structure Filled (m : Mapper) (params : Object) (errands : List Errand)
    (object object' : Object) : Prop where
  values : ∀ e ∈ errands, ∃ rows, e.answer m params = .ok rows ∧
    object'.get? e.key = some (.arr (e.valuesIn m rows))
  others : object'.filter (fun entry => !(errands.map (·.key)).contains entry.1) =
    object.filter fun entry => !(errands.map (·.key)).contains entry.1
  keys : object.keys.Nodup → object'.keys.Nodup

/-- Without errands an object is filled as it is. -/
theorem Filled.none (object : Object) : Filled m params [] object object :=
  ⟨fun _ he => (List.not_mem_nil he).elim, rfl, id⟩

/-- One errand more in front: a later errand for the same key is the same errand. -/
theorem Filled.cons {root : Entity} {id key : String} {keys : List String} {rows : List Row}
    {object object' : Object} (hrows : Errand.answer m params ⟨root, id, key⟩ = .ok rows)
    (h : Filled m params (keys.map (⟨root, id, ·⟩))
      (object.insert key (.arr (Errand.valuesIn m ⟨root, id, key⟩ rows))) object') :
    Filled m params ((key :: keys).map (⟨root, id, ·⟩)) object object' := by
  have hkeys : ∀ keys : List String,
      (keys.map fun k => (⟨root, id, k⟩ : Errand)).map (·.key) = keys := by
    intro keys
    simp [Function.comp_def]
  have hothers := h.others
  rw [hkeys] at hothers
  refine ⟨?_, ?_, fun hnodup => h.keys (Assoc.nodup_keys_insert hnodup key _)⟩
  · rw [List.map_cons, List.forall_mem_cons]
    refine ⟨⟨rows, hrows, ?_⟩, h.values⟩
    by_cases hlater : key ∈ keys
    · obtain ⟨rows', hrows', hget⟩ := h.values _ (List.mem_map.mpr ⟨key, hlater, rfl⟩)
      obtain rfl : rows = rows' := by simpa [hrows] using hrows'
      exact hget
    · have hkeep : (!keys.contains key) = true := by simpa using hlater
      rw [← Assoc.get?_filter object' (fun k => !keys.contains k) hkeep, hothers,
        Assoc.get?_filter _ (fun k => !keys.contains k) hkeep, Assoc.get?_insert, if_pos rfl]
  · rw [hkeys]
    have hsplit : ∀ o : Object, o.filter (fun entry => !(key :: keys).contains entry.1) =
        (o.filter fun entry => !keys.contains entry.1).filter
          fun entry => !decide (entry.1 = key) := by
      intro o
      rw [List.filter_filter]
      congr 1
      funext entry
      simp
    rw [hsplit, hothers, ← hsplit]
    exact Assoc.filter_insert object (fun k => !(key :: keys).contains k) _ (by simp)

/-- Entering the values of array keys one by one fills the object. -/
theorem foldlM_pursues (root : Entity) (id : String) (keys : List String) (object : Object) :
    Pursues m params (keys.map (⟨root, id, ·⟩))
      (Filled m params (keys.map (⟨root, id, ·⟩)) object)
      (keys.foldlM
        (fun object key => do
          let values ← m.fetchArray root params id key
          pure (object.insert key values))
        object) := by
  induction keys generalizing object with
  | nil => exact .pure (.none object)
  | cons key rest ih =>
      rw [List.foldlM_cons, bind_assoc]
      refine (fetchArray_pursues ⟨root, id, key⟩).bind ?_
      rintro v ⟨rows, hrows, rfl⟩
      rw [pure_bind]
      exact (ih _).mono fun object' hfilled => hfilled.cons hrows

/-- Entering the values of an object's array keys is pursuing its errands. -/
theorem expandObject_pursues (root : Part) (others : List Part)
    (found : Option String × Object) :
    Pursues m params (Errand.forObject (root :: others) found)
      (Filled m params (Errand.forObject (root :: others) found) found.2)
      (m.expandObject root.entity params root.fragment.arrays found.1 found.2) := by
  obtain ⟨subject, object⟩ := found
  cases subject with
  | none => exact .pure (.none object)
  | some id =>
      unfold Mapper.expandObject Errand.forObject
      simp only [Mapper.isBlankId_iff]
      split
      next => exact .pure (.none object)
      next => exact foldlM_pursues root.entity id root.fragment.arrays object

/-- Entering the values of array keys into objects is pursuing the errands of all of
them in order; each object is filled by its own. -/
theorem expandArrays_pursues (c : Collection) (parts : List Part)
    (found : List (Option String × Object)) :
    Pursues m c.options (found.flatMap (Errand.forObject parts))
      (List.Forall₂
        (fun d object => Filled m c.options (Errand.forObject parts d) d.2 object) found)
      (m.expandArrays c parts found) := by
  cases parts with
  | nil =>
      have hnone : found.flatMap (Errand.forObject []) = [] := by
        simp [Errand.forObject]
      rw [hnone]
      refine .pure ?_
      rw [List.forall₂_map_right_iff, List.forall₂_same]
      exact fun d _ => .none d.2
  | cons root others =>
      unfold Mapper.expandArrays
      dsimp only
      induction found with
      | nil => exact .pure .nil
      | cons d rest ih =>
          rw [List.mapM_cons, List.flatMap_cons]
          refine (expandObject_pursues root others d).bind fun object hfilled => ?_
          rw [← List.append_nil (rest.flatMap _)]
          exact ih.bind fun objects hrest => .pure (.cons hfilled hrest)

end

/-! ## Searches -/

/-- A search that is compiled: its main query, and what the answer of the endpoint to it
is decoded to, each object with its subject. -/
structure Search where
  collection : Collection
  parts : List Part
  main : IssuedQuery
  decoded : Except MapperError (List (Option String × Object))

namespace Mapper

variable (m : Mapper) (request : CollectionRequest)

/-- The search that a compiled query makes. -/
def searchBy {α : Type} (compile : Collection → Except MapperError α)
    (opening : Collection → α → Search) : Except MapperError Search := do
  let c ← Collection.build m.catalog m.config request
  let plan ← compile c
  .ok (opening c plan)

/-- The resource that an object is about: the IRI that the text under `@id` stands for. -/
def resource? (object : Object) : Option String :=
  match object.get? "@id" with
  | some (.str id) => some (m.ns.expand id)
  | _ => none

/-- A run takes for the subject of an object the resource that the object is about. -/
theorem subjectOf_eq (object : Object) : m.subjectOf object = m.resource? object := by
  unfold subjectOf resource?
  cases object.get? "@id" with
  | none => rfl
  | some v => cases v <;> rfl

/-- The search that a SELECT makes. -/
def selection : Except MapperError Search :=
  m.searchBy request (Collection.compileSelect m.ns m.config) fun c plan =>
    { collection := c
      parts := plan.parts
      main := ⟨.select, plan.text m.ns m.config, c.options⟩
      decoded :=
        match m.endpoint.select (plan.text m.ns m.config) c.options with
        | .error e => .error (.client e)
        | .ok rows =>
          .ok ((Decode.solutions m.ns plan.parts rows).map fun object =>
            (m.resource? object, object)) }

/-- The search that a CONSTRUCT makes. -/
def construction : Except MapperError Search :=
  m.searchBy request (Collection.compileConstruct m.ns m.config) fun c plan =>
    { collection := c
      parts := plan.parts
      main := ⟨.construct, plan.text m.ns m.config, c.options⟩
      decoded :=
        match m.endpoint.construct (plan.text m.ns m.config) c.options with
        | .error e => .error (.client e)
        | .ok quads =>
          if quads.isEmpty && isPinned c then .error (.emptyConstruct c.label)
          else
            (Decode.graphNodes m.ns m.config c plan.parts quads).map fun roots =>
              roots.map fun (id, object) => (some id, object) }

end Mapper

/-- What a search comes to, and the queries that it issues. -/
inductive Answered (m : Mapper) :
    Except MapperError Search → Except MapperError (List Object) → List IssuedQuery → Prop
  /-- A malformed constraint asks nothing and finds nothing. -/
  | malformed {entity : Nat} {key : String} {reason : Malformation} :
      Answered m (.error (.malformed entity key reason)) (.ok []) []
  /-- What is refused for another reason asks nothing. -/
  | refused {e : MapperError} (h : ∀ entity key reason, e ≠ .malformed entity key reason) :
      Answered m (.error e) (.error e) []
  /-- Without objects from the main query, nothing else is asked. -/
  | unanswered {s : Search} {e : MapperError} (h : s.decoded = .error e) :
      Answered m (.ok s) (.error e) [s.main]
  /-- Every errand is asked once and in order, and fills its object. -/
  | filled {s : Search} {found : List (Option String × Object)} {objects : List Object}
      (hfound : s.decoded = .ok found)
      (hanswers : ∀ e ∈ found.flatMap (Errand.forObject s.parts),
        ∃ rows, e.answer m s.collection.options = .ok rows)
      (hobjects : List.Forall₂
        (fun d object =>
          Filled m s.collection.options (Errand.forObject s.parts d) d.2 object)
        found objects) :
      Answered m (.ok s) (.ok objects)
        (s.main :: (found.flatMap (Errand.forObject s.parts)).map
          (·.query m s.collection.options))
  /-- The first errand that fails is the last one that is asked. -/
  | cut {s : Search} {found : List (Option String × Object)} {before behind : List Errand}
      {e : Errand} {failure : ClientError} (hfound : s.decoded = .ok found)
      (herrands : found.flatMap (Errand.forObject s.parts) = before ++ e :: behind)
      (hbefore : ∀ d ∈ before, ∃ rows, d.answer m s.collection.options = .ok rows)
      (he : e.answer m s.collection.options = .error failure) :
      Answered m (.ok s) (.error (.client failure))
        (s.main :: (before ++ [e]).map (·.query m s.collection.options))

section

variable (m : Mapper)

/-- A search as a run: its main query, and from there the array keys of what is
decoded. -/
def outcome : Except MapperError Search → Except MapperError (List Object) × List IssuedQuery
  | .error (.malformed _ _ _) => (.ok [], [])
  | .error e => (.error e, [])
  | .ok s =>
    match s.decoded with
    | .error e => (.error e, [s.main])
    | .ok found => (m.expandArrays s.collection s.parts found).after [s.main]

/-- The outcome answers the search. -/
theorem outcome_answered (search : Except MapperError Search) :
    Answered m search (outcome m search).1 (outcome m search).2 := by
  cases search with
  | error e =>
      cases e with
      | malformed entity key reason => exact .malformed
      | _ => exact .refused nofun
  | ok s =>
      cases hdecoded : s.decoded with
      | error e =>
          simp only [outcome, hdecoded]
          exact .unanswered hdecoded
      | ok found =>
          simp only [outcome, hdecoded]
          rcases expandArrays_pursues (m := m) s.collection s.parts found [s.main] with
            ⟨hanswers, objects, hafter, hobjects⟩ |
            ⟨before, e, behind, failure, herrands, hbefore, he, hafter⟩
          · rw [hafter]
            exact .filled hdecoded hanswers hobjects
          · rw [hafter]
            exact .cut hdecoded herrands hbefore he

/-- A search that is prepared comes to what its run from the main query on comes to. -/
theorem outcome_searchBy {α : Type} {compile : Collection → Except MapperError α}
    {opening : Collection → α → Search} {request : CollectionRequest}
    {r : Run (List Object)}
    (herror : ∀ e, m.prepare compile request = .error e → r = throw e)
    (hnone : m.prepare compile request = .ok none → r = pure [])
    (hsome : ∀ c plan, m.prepare compile request = .ok (some (c, plan)) →
      r.results = outcome m (.ok (opening c plan))) :
    r.results = outcome m (m.searchBy request compile opening) := by
  unfold Mapper.prepare at herror hnone hsome
  unfold Mapper.searchBy
  cases hbuild : Collection.build m.catalog m.config request with
  | error e =>
      simp only [hbuild, bind, Except.bind] at herror hnone ⊢
      cases e with
      | malformed => rw [hnone rfl]; rfl
      | _ => rw [herror _ rfl]; rfl
  | ok c =>
      simp only [hbuild, bind, Except.bind] at herror hnone hsome ⊢
      cases hplan : compile c with
      | error e =>
          simp only [hplan] at herror hnone
          cases e with
          | malformed => rw [hnone rfl]; rfl
          | _ => rw [herror _ rfl]; rfl
      | ok plan => exact hsome c plan (by simp [hplan])

/-- A query is put on record before its answer is looked at. -/
theorem results_issue {α : Type} (kind : QueryKind) (text : String) (params : Object)
    (answer : Except ClientError α) (f : α → Run (List Object)) :
    (Run.issue kind text params answer >>= f).results =
      match answer with
      | .ok a => (f a).after [⟨kind, text, params⟩]
      | .error e => (.error (.client e), [⟨kind, text, params⟩]) := by
  rw [Run.results_eq, Run.after_bind, Run.after_issue]
  cases answer <;> rfl

/-- A SELECT comes to the outcome of its search. -/
theorem selectObjects_results (request : CollectionRequest) :
    (m.selectObjects request).results = outcome m (m.selection request) := by
  unfold Mapper.selectObjects
  refine outcome_searchBy m (fun e h => by rw [h]) (fun h => by rw [h]) fun c plan h => ?_
  rw [h]
  dsimp only
  rw [results_issue]
  unfold outcome
  simp only [Mapper.subjectOf_eq]
  cases m.endpoint.select (plan.text m.ns m.config) c.options <;> rfl

/-- A CONSTRUCT comes to the outcome of its search. -/
theorem constructObjects_results (request : CollectionRequest) :
    (m.constructObjects request).results = outcome m (m.construction request) := by
  unfold Mapper.constructObjects
  refine outcome_searchBy m (fun e h => by rw [h]) (fun h => by rw [h]) fun c plan h => ?_
  rw [h]
  dsimp only
  rw [results_issue]
  unfold outcome
  cases m.endpoint.construct (plan.text m.ns m.config) c.options with
  | error e => rfl
  | ok quads =>
      dsimp only
      split
      next => rfl
      next => cases Decode.graphNodes m.ns m.config c plan.parts quads <;> rfl

end

/-- **What searches ask and find.**  A SELECT and a CONSTRUCT ask nothing unless the
constraint is compiled; then they issue the main query and, for each object it is
decoded to whose subject is an IRI, in order, one follow-up for each array key of the
root, up to the first that fails; each object gets the distinct values of its own
follow-ups, and is otherwise unchanged. -/
theorem Mapper.searches_answered (m : Mapper) (request : CollectionRequest) :
    Answered m (m.selection request) (m.selectObjects request).results.1
        (m.selectObjects request).results.2 ∧
      Answered m (m.construction request) (m.constructObjects request).results.1
        (m.constructObjects request).results.2 := by
  rw [selectObjects_results, constructObjects_results]
  exact ⟨outcome_answered m _, outcome_answered m _⟩

namespace Mapper

/-- A request for things with their tags. -/
def taggedThings : CollectionRequest where
  id := none
  entities :=
    [{ schema :=
         .inline
           { targetClass := some "ex:Thing"
             context := [("tags", .str "ex:tag")]
             properties := [("tags", { type := some "array" })] }
       conditions := []
       selection := none
       data := []
       resolveType := none
       orderBy := none
       limit := none
       offset := none
       distinct := none
       service := none }]
  orderBy := none
  limit := none
  offset := none
  distinct := none
  options := []

/-- A solution that binds one variable to a term of a kind. -/
def solution (x kind text : String) : Value :=
  .obj [(x, .obj [("type", .str kind), ("value", .str text)])]

/-- That a resource is a thing. -/
def thingQuad (subject : QuadTerm) : Value :=
  Quad.toJson ⟨subject, .named Vocabulary.rdfType, .named "http://example.org/Thing", none⟩

/-- The rules of an endpoint that knows the tags of two things, and may fail to answer
for the second one.  A blank node is a thing, too, one solution has no thing at all, and
the first thing is found once more at the end. -/
def thingRules (failure : Option ClientError) : List ScriptRule :=
  [{ Endpoint.silentRule with
     occurs := "ex:t1"
     bindings := .arr (["red", "blue", "red"].map (solution "tags0" "literal")) },
   { Endpoint.silentRule with
     occurs := "ex:t2"
     failure := failure
     bindings := .arr [solution "tags0" "literal" "green"] },
   { Endpoint.silentRule with
     occurs := "ex:Thing"
     bindings := .arr
       [solution "eIri0" "uri" "http://example.org/t1", solution "eIri0" "bnode" "b1",
        .obj [], solution "eIri0" "uri" "http://example.org/t2",
        solution "eIri0" "uri" "http://example.org/t1"]
     quads := .arr
       [thingQuad (.named "http://example.org/t1"), thingQuad (.blank "b1"),
        thingQuad (.named "http://example.org/t2")] }]

/-- A mapper over that endpoint. -/
def overThings (failure : Option ClientError) : Mapper where
  endpoint := .scripted (thingRules failure)
  catalog := ⟨[]⟩
  ns := .exampleOrg
  config := {}

/-- The head of each query. -/
def prologue : String := "PREFIX ex: <http://example.org/>\n"

/-- The pattern that finds the things. -/
def thingPattern : String :=
  "\x7b\n  ?eIri0 <http://www.w3.org/1999/02/22-rdf-syntax-ns#type> ex:Thing .\n\x7d"

/-- The follow-up for the tags of a thing. -/
def tagsQuery (thing : String) : QueryKind × String :=
  (.select, prologue ++ "SELECT ?tags0 WHERE \x7b\n  " ++ thing ++ " ex:tag ?tags0 .\n\x7d")

/-- The first thing with its tags, each once. -/
def firstThing : Object :=
  [("@id", .str "ex:t1"), ("tags", .arr [.str "red", .str "blue"])]

/-- What a run comes to, with the message of an error, and what it asks. -/
def shown (r : Run (List Object)) : Except String (List Object) × List (QueryKind × String) :=
  (r.results.1.mapError MapperError.message, r.results.2.map fun q => (q.kind, q.text))

/-- The tags of both things are asked for, one thing after the other and as often as it is
found; neither the blank node nor the solution without a thing is asked about.  If the
second thing fails, nothing is asked behind it. -/
theorem searches_answered_things :
    (shown ((overThings none).selectObjects taggedThings) =
        (.ok [firstThing, [("@id", .str "_:b1")], [],
          [("@id", .str "ex:t2"), ("tags", .arr [.str "green"])], firstThing],
         [(.select, prologue ++ "SELECT ?eIri0 WHERE " ++ thingPattern), tagsQuery "ex:t1",
          tagsQuery "ex:t2", tagsQuery "ex:t1"]) ∧
      Answered (overThings none) ((overThings none).selection taggedThings)
        ((overThings none).selectObjects taggedThings).results.1
        ((overThings none).selectObjects taggedThings).results.2) ∧
    (shown ((overThings (some (.status 503 "busy"))).selectObjects taggedThings) =
        (.error "Client error: Endpoint returned status 503: busy",
         [(.select, prologue ++ "SELECT ?eIri0 WHERE " ++ thingPattern), tagsQuery "ex:t1",
          tagsQuery "ex:t2"]) ∧
      Answered (overThings (some (.status 503 "busy")))
        ((overThings (some (.status 503 "busy"))).selection taggedThings)
        ((overThings (some (.status 503 "busy"))).selectObjects taggedThings).results.1
        ((overThings (some (.status 503 "busy"))).selectObjects taggedThings).results.2) ∧
    shown ((overThings none).constructObjects taggedThings) =
        (.ok [firstThing, [("@id", .str "_:b1")],
          [("@id", .str "ex:t2"), ("tags", .arr [.str "green"])]],
         [(.construct, prologue ++ "CONSTRUCT " ++ thingPattern ++ "\nWHERE " ++ thingPattern),
          tagsQuery "ex:t1", tagsQuery "ex:t2"]) ∧
      Answered (overThings none) ((overThings none).construction taggedThings)
        ((overThings none).constructObjects taggedThings).results.1
        ((overThings none).constructObjects taggedThings).results.2 :=
  ⟨⟨by decide +kernel, (searches_answered (overThings none) taggedThings).1⟩,
    ⟨by decide +kernel,
      (searches_answered (overThings (some (.status 503 "busy"))) taggedThings).1⟩,
    by decide +kernel, (searches_answered (overThings none) taggedThings).2⟩

end Mapper

end ObjectGraph
