import ObjectGraph.Proofs.Compile.Comparisons
import ObjectGraph.Proofs.Compile.SafeUpdates
import ObjectGraph.Proofs.Compile.Template
import ObjectGraph.Proofs.Sparql.Requests

/-!
# Which updates can be executed

An update deletes and inserts the keys of the data that have a predicate.  Where an entity has
no such key, both of its templates are empty; its operation is there nevertheless, and all that
is written of it is its group.  So the text of an update is a request of the grammar if and only
if every entity has something to store (`compileUpdate_executable`).  One entity that only has
conditions makes the request of all others unreadable (`unstored_thing_spoils_request`).
-/

namespace ObjectGraph

open Json (Value)
open Sparql (Var Term Triple Expression Pattern Operation)
open Sparql.Pattern (IsPlain)

/-! ## Filters of the grammar -/

/-- Grammatical tests stay so behind each other with `&&` or `||`. -/
theorem Sparql.Expression.isGrammatical_fold? {op : Sparql.BinaryOp}
    (hop : op.isComparison = false) {tests : List Expression} {g : Expression}
    (h : fold? op tests = some g) (htests : ∀ t ∈ tests, t.IsGrammatical) : g.IsGrammatical := by
  cases tests with
  | nil => cases h
  | cons t rest =>
      obtain rfl := Option.some.inj h
      obtain ⟨hfirst, hrest⟩ := List.forall_mem_cons.mp htests
      exact List.foldlRecOn rest _ hfirst fun l hl r hr => ⟨hl, hrest r hr, by simp [hop]⟩

namespace Filter

variable {ns : Namespaces} {kind : Kind} {x : Var} {g : Expression}

/-- A variable is compared with one value at a time. -/
theorem comparison_isGrammatical (op : Sparql.BinaryOp) (v : Value) :
    (comparison op x ns kind v).IsGrammatical := by
  obtain ⟨i, hi⟩ | ⟨l, hl⟩ := operand_cases ns kind v
  · simp [comparison, hi, Expression.IsGrammatical, Expression.isComparison]
  · simp [comparison, hl, Expression.IsGrammatical, Expression.isComparison]

/-- The texts that a call compares are grammatical, since they are literals. -/
theorem patternText_areGrammatical (args : List Value) :
    Sparql.AreGrammatical (args.map patternText) := by
  induction args with
  | nil => trivial
  | cons v rest ih => exact ⟨by cases v <;> trivial, ih⟩

/-- A test of a text is a call with as many arguments as its function takes. -/
theorem textTest_isGrammatical {f : Sparql.Builtin} {args : List Value}
    (hf : f.takes (args.length + 1) = true) : (textTest f x args).IsGrammatical := by
  refine ⟨?_, ?_, patternText_areGrammatical args⟩
  · cases f with
    | bound => cases hf
    | _ => simpa [Sparql.Builtin.fits] using hf
  · simp [Expression.IsGrammatical, Sparql.AreGrammatical, Sparql.Builtin.fits,
      Sparql.Builtin.takes]

/-- The filter of a relation is an expression of the grammar. -/
theorem related_isGrammatical {relation : Relation} {values : List Value}
    (h : related x ns kind relation values = some g) : g.IsGrammatical := by
  cases relation with
  | equal | any | notEqual | notAny =>
      exact Expression.isGrammatical_fold? rfl h
        (List.forall_mem_map.mpr fun v _ => comparison_isGrammatical _ v)
  | contains | startWith | endWith =>
      exact Expression.isGrammatical_fold? rfl h
        (List.forall_mem_map.mpr fun v _ => textTest_isGrammatical rfl)
  | notContains =>
      exact Expression.isGrammatical_fold? rfl h
        (List.forall_mem_map.mpr fun v _ => ⟨textTest_isGrammatical rfl, rfl⟩)
  | after | before =>
      obtain ⟨v, -, rfl⟩ := Option.map_eq_some_iff.mp h
      exact comparison_isGrammatical _ v
  | between =>
      rcases values with _ | ⟨low, _ | ⟨high, rest⟩⟩
      · cases h
      · cases h
      · obtain rfl := Option.some.inj h
        exact ⟨comparison_isGrammatical _ low, comparison_isGrammatical _ high,
          by simp [Sparql.BinaryOp.isComparison]⟩
  | regEx =>
      -- with flags the call has one argument more
      rcases values with _ | ⟨pattern, _ | ⟨flags, rest⟩⟩
      · cases h
      · obtain rfl := Option.some.inj h
        exact textTest_isGrammatical rfl
      · obtain rfl := Option.some.inj h
        exact textTest_isGrammatical rfl
  | exist | notExist => cases h

/-- A test of equality is grammatical. -/
theorem equality_isGrammatical {v : Value} (h : equality x ns kind v = some g) :
    g.IsGrammatical := by
  cases v with
  | arr values =>
      have hany : related x ns kind .any values = some g := h
      exact related_isGrammatical hany
  | null | bool | num | str | obj =>
      obtain rfl := Option.some.inj h
      exact comparison_isGrammatical .eq _

end Filter

/-- What a condition that narrows is filtered by is an expression of the grammar. -/
theorem Draft.conditionFilter_isGrammatical {ns : Namespaces} {e : Entity} {subject : Term}
    {m : Mapping} {key : String} {x : Var} {c : Condition} {a : Allocator} {g : Expression}
    (hc : c.narrows = true) (h : (conditionFilter ns e subject m key x c a).1 = some g) :
    g.IsGrammatical := by
  cases c with
  | shared | computed => cases h
  | value v => exact Filter.equality_isGrammatical h
  | related relation values =>
      have hrelation : relation.isExistence = false := by simpa [Condition.narrows] using hc
      have hrelated : Filter.related x ns (e.schema.kindOf key).element relation values =
          some g := by
        simpa [conditionFilter, hrelation] using h
      exact Filter.related_isGrammatical hrelated

namespace Entity

variable {ns : Namespaces} {e : Entity} {a a' : Allocator}

/-- Whether a key of the data, other than identity and type, has a predicate. -/
def HasStoredKey (ns : Namespaces) (e : Entity) : Prop :=
  ∃ d ∈ e.data, Schema.isKeyword d.1 = false ∧ ∃ m, e.mapping? ns d.1 = some m

/-- Something is stored exactly if there is a key to be stored. -/
theorem storedData_ne_nil_iff : e.storedData ns ≠ [] ↔ e.HasStoredKey ns := by
  unfold storedData HasStoredKey
  rw [ne_eq, List.filterMap_eq_nil_iff, not_forall]
  refine exists_congr fun d => ?_
  cases hkey : Schema.isKeyword d.1 <;> simp [Option.ne_none_iff_exists']

namespace Matches

variable {subject : Term} {m : Matches}

/-- Each filter compares a variable or tests for the triple of a property. -/
theorem filters_plain (entries : List (String × Mapping × Condition))
    (hm : ∀ g ∈ m.filters, IsPlain (.filter g)) :
    ∀ g ∈ (entries.foldl (addCondition ns e subject) m).filters, IsPlain (.filter g) := by
  refine List.foldlRecOn (motive := fun m : Matches => ∀ g ∈ m.filters, IsPlain (.filter g))
    entries _ hm fun m hm entry _ g hg => ?_
  rcases List.mem_append.mp hg with hg | hg
  · exact hm g hg
  · have hfilter := Option.mem_toList.mp hg
    rcases Draft.conditionFilter_checks hfilter with
      ⟨hnarrows, hchecks⟩ | ⟨-, relation, witness, rfl⟩
    · exact .comparison hchecks.testedGroups_eq
        (Draft.conditionFilter_isGrammatical hnarrows hfilter)
    · have hgroup : ∀ p ∈ [Pattern.triples [entry.2.1.triple subject (.var witness)]],
          p.IsPlain := List.forall_mem_singleton.mpr (.triples _)
      unfold Mapping.test
      split
      · exact .exist hgroup
      · exact .notExist hgroup

end Matches

/-- An update has the shape of its two templates, and they are empty only together, when there
is nothing to store. -/
theorem compileUpdate_plain {op : Operation} (h : e.compileUpdate ns a = .ok (op, a')) :
    op.IsPlain ∧ (op.HasTemplate ↔ e.HasStoredKey ns) := by
  obtain ⟨subject, b, -, rfl, -⟩ := compileUpdate_cases h
  have hany : Enduring fun _ => True := fun _ _ _ => trivial
  obtain ⟨-, hfilters, -, hdelete⟩ :=
    Matches.oldValues_spec (m := e.matchedConditions ns subject b) hany subject
      (e.storedData ns) trivial
  constructor
  · constructor
    · intro t ht
      rcases List.mem_append.mp ht with ht | ht
      · obtain ⟨d, -, y, rfl⟩ := hdelete t ht
        rw [Mapping.triple_predicate]
        rfl
      · obtain ⟨d, -, ht⟩ := List.mem_flatMap.mp ht
        obtain ⟨object, -, rfl⟩ := List.mem_map.mp ht
        rw [Mapping.triple_predicate]
        rfl
    · intro p hp
      simp only [updateGroup, List.cons_append, List.mem_cons, List.mem_append, List.mem_map] at hp
      rcases hp with rfl | ⟨t, -, rfl⟩ | ⟨g, hg, rfl⟩
      · exact .triples _
      · exact .optional (List.forall_mem_singleton.mpr (.triples _))
      · rw [hfilters] at hg
        exact Matches.filters_plain _ (List.forall_mem_nil _) g hg
  · rw [← storedData_ne_nil_iff]
    cases hdata : e.storedData ns with
    | nil => simp [Operation.HasTemplate, Matches.oldValues]
    | cons d rest => simp [Operation.HasTemplate, Matches.oldValues]

end Entity

namespace Collection

open Entity

variable {ns : Namespaces} {c : Collection} {u : Sparql.Update}

/-- **Updates are executable where there is something to store.**  An update has one operation
for each entity, in their order.  An operation has a template if and only if a key of the data of
its entity has a predicate, and the text is a request of the grammar, however templates and groups
are read, if and only if this is so for every entity. -/
theorem compileUpdate_executable (h : c.compileUpdate ns = .ok u) (blocks : Sparql.Blocks) :
    List.Forall₂ (fun (e : Entity) (op : Operation) => op.HasTemplate ↔ e.HasStoredKey ns)
      c.entities u ∧
    (Sparql.RequestPhrase blocks (Sparql.solid (Sparql.updateDocument u)) ↔
      ∀ e ∈ c.entities, e.HasStoredKey ns) := by
  have hop : ∀ e a op b, Entity.compileUpdate ns e a = .ok (op, b) →
      op.IsPlain ∧ (op.HasTemplate ↔ e.HasStoredKey ns) := fun _ _ _ _ => compileUpdate_plain
  have hentities := operations_forall₂ hop h
  generalize c.entities = entities at hentities
  have hplain : ∀ op ∈ u, op.IsPlain := by
    clear h
    induction hentities with
    | nil => nofun
    | cons hop _ ih => exact List.forall_mem_cons.mpr ⟨hop.1, ih⟩
  constructor
  · exact List.Forall₂.imp (fun _ _ hop => hop.2) hentities
  · rw [Sparql.request_iff hplain]
    clear h hplain
    induction hentities with
    | nil => simp
    | cons hop _ ih => rw [List.forall_mem_cons, List.forall_mem_cons, hop.2, ih]

/-- A fixed thing with the data that it is updated with. -/
def fixedThing (index : Nat) (iri : String) (data : List (String × Value)) : Entity where
  index := index
  schema :=
    { targetClass := some "ex:Thing"
      context := [("name", .str "ex:name")]
      properties := [("name", { type := some "string" })] }
  conditions := [("@id", .value (.str iri))]
  data := data

/-- One thing gets a name and the other one loses its own. -/
theorem compileUpdate_executable_fixedThings :
    let c : Collection :=
      { entities := [fixedThing 0 "ex:t1" [("name", .str "n")],
          fixedThing 1 "ex:t2" [("name", .null)]] }
    let name (thing object : Term) : Triple := ⟨thing, .iri "http://example.org/name", object⟩
    let group (thing : Term) (x : Var) : List Pattern :=
      [.triples [exactType thing "http://example.org/Thing"], .optionalTriple (name thing (.var x))]
    let t1 : Term := .iri "http://example.org/t1"
    let t2 : Term := .iri "http://example.org/t2"
    let u : Sparql.Update :=
      [.modify [name t1 (.var ⟨"name0"⟩)] [name t1 (.literal (.plain "n"))]
          (group t1 ⟨"name0"⟩),
        .modify [name t2 (.var ⟨"name1"⟩)] [] (group t2 ⟨"name1"⟩)]
    c.compileUpdate .exampleOrg = .ok u ∧
      Sparql.RequestPhrase .least (Sparql.solid (Sparql.updateDocument u)) := by
  intro c name group t1 t2 u
  have hu : c.compileUpdate .exampleOrg = .ok u := rfl
  obtain ⟨-, hrequest⟩ := compileUpdate_executable hu .least
  refine ⟨hu, hrequest.mpr ?_⟩
  have hname (index : Nat) (iri : String) (v : Value) :
      (fixedThing index iri [("name", v)]).HasStoredKey .exampleOrg :=
    ⟨("name", v), List.mem_singleton_self _, rfl, _, rfl⟩
  have hsecond := List.forall_mem_singleton.mpr (hname 1 "ex:t2" .null)
  exact List.forall_mem_cons.mpr ⟨hname 0 "ex:t1" _, hsecond⟩

/-- A thing that is only looked for leaves a group without templates behind, and the request
that also names another thing is none. -/
theorem unstored_thing_spoils_request :
    let c : Collection :=
      { entities := [fixedThing 0 "ex:t1" [("name", .str "n")], fixedThing 1 "ex:t2" []] }
    ∃ first group, c.compileUpdate .exampleOrg = .ok [first, .modify [] [] group] ∧
      updateText .exampleOrg {} [.modify [] [] group] =
        "PREFIX ex: <http://example.org/>\n" ++
          "WHERE \x7b\n  ex:t2 <http://www.w3.org/1999/02/22-rdf-syntax-ns#type> ex:Thing .\n\x7d" ∧
      ∀ blocks, ¬ Sparql.RequestPhrase blocks
        (Sparql.solid (Sparql.updateDocument [first, .modify [] [] group])) := by
  intro c
  refine ⟨_, _, rfl, by decide +kernel, fun blocks hrequest => ?_⟩
  have htemplate := hrequest.hasTemplate _ (List.mem_cons_of_mem _ (List.mem_singleton_self _))
  rcases htemplate with hdelete | hinsert
  · exact hdelete rfl
  · exact hinsert rfl

end Collection

end ObjectGraph
