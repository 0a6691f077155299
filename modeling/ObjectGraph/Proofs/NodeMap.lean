import Mathlib.Data.List.Nodup
import ObjectGraph.Node

/-!
# Quads as nodes

A quad whose terms suit their positions (`Quad.Grounded`) says one thing of a subject: a
type, if the predicate is that of types and the object a named node, and else a value of a
property.  A map of nodes groups such facts (`Groups`) if it has one node for each subject,
and each node has its types, its predicates and the values under each of them exactly once
and in the order in which they first came (`FirstSeen`).

Entering one more fact keeps this up (`Groups.enter`), and a fact that is grouped already
changes nothing (`Groups.enter_mem`).  So what quads are grouped into says exactly what they
say, and saying a thing again makes no difference (`ofQuads_groups`).
-/

namespace ObjectGraph

/-! ## What first came -/

/-- A list has what stands in another one, each once, in the order in which it first came:
of two entries the first one stands in a front part of the other list without the second. -/
structure FirstSeen {α : Type} (seen source : List α) : Prop where
  nodup : seen.Nodup
  mem_iff : ∀ a, a ∈ seen ↔ a ∈ source
  order : seen.Pairwise fun a b => ∃ front, front <+: source ∧ a ∈ front ∧ b ∉ front

namespace FirstSeen

variable {α : Type} {seen source : List α}

/-- Of nothing nothing is first. -/
theorem nil : FirstSeen ([] : List α) [] :=
  ⟨.nil, fun _ => .rfl, .nil⟩

/-- One entry more comes last if it is new. -/
theorem concat [DecidableEq α] (h : FirstSeen seen source) (a : α) :
    FirstSeen (if a ∈ seen then seen else seen ++ [a]) (source ++ [a]) := by
  have horder : seen.Pairwise fun b c =>
      ∃ front, front <+: source ++ [a] ∧ b ∈ front ∧ c ∉ front := by
    refine h.order.imp ?_
    rintro b c ⟨front, hfront, hb, hc⟩
    exact ⟨front, hfront.trans (List.prefix_append _ _), hb, hc⟩
  split
  next hold =>
    refine ⟨h.nodup, fun b => ?_, horder⟩
    rw [List.mem_append, List.mem_singleton, ← h.mem_iff]
    exact ⟨.inl, fun hb => hb.elim id (· ▸ hold)⟩
  next hnew =>
    refine ⟨?_, fun b => by simp [h.mem_iff], ?_⟩
    · refine List.nodup_append.mpr ⟨h.nodup, List.nodup_singleton a, ?_⟩
      rintro b hb c hc rfl
      exact hnew (List.mem_singleton.mp hc ▸ hb)
    · refine List.pairwise_append.mpr ⟨horder, List.pairwise_singleton _ _, ?_⟩
      intro b hb c hc
      obtain rfl := List.mem_singleton.mp hc
      exact ⟨source, List.prefix_append _ _, (h.mem_iff b).mp hb,
        fun hmem => hnew ((h.mem_iff c).mpr hmem)⟩

end FirstSeen

/-- Entering the value that stands under a key changes nothing. -/
theorem Assoc.insert_of_get? {α : Type} {m : Assoc α} {key : String} {value : α}
    (h : m.get? key = some value) : m.insert key value = m := by
  induction m with
  | nil => cases h
  | cons e rest ih =>
      obtain ⟨k, v⟩ := e
      unfold Assoc.get? at h
      unfold Assoc.insert
      split at h
      next heq => rw [if_pos heq, Option.some.inj h, heq]
      next hne => rw [if_neg hne, ih h]

/-! ## Facts -/

/-- What is said of a subject. -/
structure Fact where
  subject : String
  predicate : String
  value : NodeValue

namespace Fact

/-- The type that a fact gives its subject, if it does. -/
def type? (f : Fact) : Option String :=
  match f.value with
  | .iri type => if f.predicate = Vocabulary.rdfType then some type else none
  | .blank _ | .literal _ _ _ => none

/-- The types that facts give a subject. -/
def typesOf (facts : List Fact) (subject : String) : List String :=
  (facts.filter (·.subject = subject)).filterMap type?

/-- What facts say of a subject besides its types. -/
def propertiesOf (facts : List Fact) (subject : String) : List Fact :=
  (facts.filter (·.subject = subject)).filter (·.type? = none)

/-- The predicates of a subject's properties. -/
def predicatesOf (facts : List Fact) (subject : String) : List String :=
  (propertiesOf facts subject).map (·.predicate)

/-- The values that a subject has of a property. -/
def valuesOf (facts : List Fact) (subject predicate : String) : List NodeValue :=
  ((propertiesOf facts subject).filter (·.predicate = predicate)).map (·.value)

/-- One more fact adds its type to the types of its subject. -/
theorem typesOf_concat (facts : List Fact) (f : Fact) (subject : String) :
    typesOf (facts ++ [f]) subject =
      typesOf facts subject ++ if f.subject = subject then f.type?.toList else [] := by
  by_cases h : f.subject = subject
  · cases htype : f.type? <;> simp [typesOf, h, htype]
  · simp [typesOf, h]

/-- One more fact adds its property to those of its subject. -/
theorem propertiesOf_concat (facts : List Fact) (f : Fact) (subject : String) :
    propertiesOf (facts ++ [f]) subject =
      propertiesOf facts subject ++ if f.subject = subject ∧ f.type? = none then [f] else [] := by
  by_cases h : f.subject = subject <;> by_cases htype : f.type? = none <;>
    simp [propertiesOf, h, htype]

end Fact

/-- The terms of a quad suit their positions. -/
structure Quad.Grounded (q : Quad) : Prop where
  subject : q.subject.kind = .namedNode ∨ q.subject.kind = .blankNode
  predicate : q.predicate.kind = .namedNode
  object : q.object.kind = .namedNode ∨ q.object.kind = .blankNode ∨ q.object.kind = .literal

/-- What a quad says whose terms suit their positions. -/
def Quad.fact (q : Quad) : Fact where
  subject := if q.subject.kind = .blankNode then blankId q.subject.value else q.subject.value
  predicate := q.predicate.value
  value :=
    if q.object.kind = .namedNode then .iri q.object.value
    else if q.object.kind = .blankNode then .blank (blankId q.object.value)
    else .literal q.object.value q.object.datatypeIri? q.object.languageTag?

/-! ## Nodes -/

/-- A node has what facts say of its subject. -/
structure Node.Describes (n : Node) (facts : List Fact) : Prop where
  types : FirstSeen n.types (Fact.typesOf facts n.id)
  predicates : FirstSeen n.properties.keys (Fact.predicatesOf facts n.id)
  values : ∀ predicate, FirstSeen (n.values predicate) (Fact.valuesOf facts n.id predicate)

/-- There is one node for each subject, and it has what facts say of it. -/
structure Groups (nodes : NodeMap) (facts : List Fact) : Prop where
  subjects : FirstSeen (nodes.map (·.id)) (facts.map (·.subject))
  describes : ∀ n ∈ nodes, n.Describes facts

namespace Node

variable {n : Node} {facts : List Fact} {f : Fact}

/-- A fact is entered as a type or as a value of a property. -/
theorem add_fact (n : Node) (f : Fact) :
    n.add f.predicate f.value =
      match f.type? with
      | some type => n.addType type
      | none => n.addValue f.predicate f.value := by
  obtain ⟨subject, predicate, v⟩ := f
  cases v with
  | iri type => by_cases h : predicate = Vocabulary.rdfType <;> simp [add, Fact.type?, h]
  | blank | literal => rfl

/-- A node keeps its identity when it is given a value. -/
theorem id_add (n : Node) (predicate : String) (v : NodeValue) : (n.add predicate v).id = n.id := by
  cases v with
  | iri type =>
      unfold add addType addValue
      dsimp only
      split <;> rfl
  | blank | literal => rfl

/-- A value is added to its property once, and to no other. -/
theorem values_addValue (n : Node) (predicate other : String) (v : NodeValue) :
    (n.addValue predicate v).values other =
      if predicate = other then
        if v ∈ n.values other then n.values other else n.values other ++ [v]
      else n.values other := by
  by_cases h : predicate = other
  · subst h
    simp [addValue, values, Assoc.get?_insert]
  · simp [addValue, values, Assoc.get?_insert, h]

/-- An empty node is all that is known of a subject without facts. -/
theorem describes_empty {subject : String} (h : subject ∉ facts.map (·.subject)) :
    (empty subject).Describes facts := by
  have hnone : facts.filter (·.subject = subject) = [] := by
    refine List.filter_eq_nil_iff.mpr fun f hf => ?_
    simpa using fun heq : f.subject = subject => h (heq ▸ List.mem_map_of_mem hf)
  have hproperties : Fact.propertiesOf facts subject = [] := by
    rw [Fact.propertiesOf, hnone, List.filter_nil]
  refine ⟨?_, ?_, fun predicate => ?_⟩
  · rw [empty, Fact.typesOf, hnone]
    exact .nil
  · rw [empty, Fact.predicatesOf, hproperties]
    exact .nil
  · rw [empty, Fact.valuesOf, hproperties]
    exact .nil

/-- A fact about another subject says nothing of a node. -/
theorem Describes.other (h : n.Describes facts) (hne : f.subject ≠ n.id) :
    n.Describes (facts ++ [f]) := by
  have hproperties : Fact.propertiesOf (facts ++ [f]) n.id = Fact.propertiesOf facts n.id := by
    simp [Fact.propertiesOf_concat, hne]
  refine ⟨?_, ?_, fun predicate => ?_⟩
  · rw [Fact.typesOf_concat, if_neg hne, List.append_nil]
    exact h.types
  · rw [Fact.predicatesOf, hproperties]
    exact h.predicates
  · rw [Fact.valuesOf, hproperties]
    exact h.values predicate

/-- A type is entered behind the others. -/
theorem Describes.addType (h : n.Describes facts) (hsubject : f.subject = n.id) {type : String}
    (htype : f.type? = some type) : (n.addType type).Describes (facts ++ [f]) := by
  have hproperties : Fact.propertiesOf (facts ++ [f]) n.id = Fact.propertiesOf facts n.id := by
    simp [Fact.propertiesOf_concat, htype]
  refine ⟨?_, ?_, fun predicate => ?_⟩
  · have htypes : Fact.typesOf (facts ++ [f]) n.id = Fact.typesOf facts n.id ++ [type] := by
      simp [Fact.typesOf_concat, hsubject, htype]
    exact htypes ▸ h.types.concat type
  · have hpredicates : Fact.predicatesOf (facts ++ [f]) n.id = Fact.predicatesOf facts n.id := by
      rw [Fact.predicatesOf, hproperties, Fact.predicatesOf]
    exact hpredicates ▸ h.predicates
  · have hvalues : Fact.valuesOf (facts ++ [f]) n.id predicate =
        Fact.valuesOf facts n.id predicate := by
      rw [Fact.valuesOf, hproperties, Fact.valuesOf]
    exact hvalues ▸ h.values predicate

/-- A value is entered behind the others of its property, a new property behind the
others. -/
theorem Describes.addValue (h : n.Describes facts) (hsubject : f.subject = n.id)
    (htype : f.type? = none) : (n.addValue f.predicate f.value).Describes (facts ++ [f]) := by
  have hproperties :
      Fact.propertiesOf (facts ++ [f]) n.id = Fact.propertiesOf facts n.id ++ [f] := by
    simp [Fact.propertiesOf_concat, hsubject, htype]
  refine ⟨?_, ?_, fun predicate => ?_⟩
  · have htypes : Fact.typesOf (facts ++ [f]) n.id = Fact.typesOf facts n.id := by
      simp [Fact.typesOf_concat, htype]
    exact htypes ▸ h.types
  · have hkeys : (n.addValue f.predicate f.value).properties.keys =
        if f.predicate ∈ n.properties.keys then n.properties.keys
        else n.properties.keys ++ [f.predicate] := Assoc.keys_insert _ _ _
    have hpredicates : Fact.predicatesOf (facts ++ [f]) n.id =
        Fact.predicatesOf facts n.id ++ [f.predicate] := by
      rw [Fact.predicatesOf, hproperties, List.map_append]
      rfl
    rw [hkeys]
    exact hpredicates ▸ h.predicates.concat f.predicate
  · have hvalues : Fact.valuesOf (facts ++ [f]) n.id predicate =
        Fact.valuesOf facts n.id predicate ++
          if f.predicate = predicate then [f.value] else [] := by
      rw [Fact.valuesOf, hproperties, List.filter_append, List.map_append]
      by_cases heq : f.predicate = predicate <;> simp [Fact.valuesOf, heq]
    change FirstSeen _ (Fact.valuesOf (facts ++ [f]) n.id predicate)
    rw [values_addValue, hvalues]
    by_cases heq : f.predicate = predicate
    · rw [if_pos heq, if_pos heq]
      exact (h.values predicate).concat f.value
    · rw [if_neg heq, if_neg heq, List.append_nil]
      exact h.values predicate

/-- **A fact about its subject** is entered into a node. -/
theorem Describes.add (h : n.Describes facts) (hsubject : f.subject = n.id) :
    (n.add f.predicate f.value).Describes (facts ++ [f]) := by
  rw [add_fact]
  cases htype : f.type? with
  | some type => exact h.addType hsubject htype
  | none => exact h.addValue hsubject htype

/-- A fact that a node has is not entered again. -/
theorem Describes.add_mem (h : n.Describes facts) (hf : f ∈ facts) (hsubject : f.subject = n.id) :
    n.add f.predicate f.value = n := by
  have hmem : f ∈ facts.filter (·.subject = n.id) := by simpa using ⟨hf, hsubject⟩
  rw [add_fact]
  cases htype : f.type? with
  | some type =>
      have hold : type ∈ n.types :=
        (h.types.mem_iff type).mpr (List.mem_filterMap.mpr ⟨f, hmem, htype⟩)
      simp [Node.addType, hold]
  | none =>
      have hold : f.value ∈ n.values f.predicate := by
        refine ((h.values f.predicate).mem_iff f.value).mpr (List.mem_map_of_mem ?_)
        simpa [Fact.propertiesOf, htype] using hmem
      have hget : n.properties.get? f.predicate = some (n.values f.predicate) := by
        unfold Node.values at hold ⊢
        cases hvs : n.properties.get? f.predicate with
        | none => simp [hvs] at hold
        | some vs => rfl
      simp [Node.addValue, hold, Assoc.insert_of_get? hget]

end Node

/-! ## Maps of nodes -/

namespace NodeMap

variable {nodes : NodeMap} {facts : List Fact} {f : Fact} {n : Node}
  {subject predicate : String} {v : NodeValue}

/-- A subject gets a node when something is first said of it. -/
theorem ids_add (subject predicate : String) (v : NodeValue) :
    (nodes.add subject predicate v).map (·.id) =
      if subject ∈ nodes.map (·.id) then nodes.map (·.id) else nodes.map (·.id) ++ [subject] := by
  induction nodes with
  | nil => simp [add, Node.id_add, Node.empty]
  | cons n rest ih =>
      unfold add
      split
      next h => simp [Node.id_add, h]
      next h =>
        rw [List.map_cons, ih]
        by_cases hmem : subject ∈ rest.map (·.id)
        · simp only [hmem, if_true, List.map_cons, List.mem_cons, or_true]
        · simp only [hmem, if_false, List.map_cons, List.mem_cons, or_false, Ne.symm h,
            List.cons_append]

/-- A node is as it was, unless it is the one of the subject. -/
theorem mem_add (hids : (nodes.map (·.id)).Nodup) (h : n ∈ nodes.add subject predicate v) :
    (n ∈ nodes ∧ n.id ≠ subject) ∨ (∃ m ∈ nodes, m.id = subject ∧ n = m.add predicate v) ∨
      (subject ∉ nodes.map (·.id) ∧ n = (Node.empty subject).add predicate v) := by
  induction nodes with
  | nil => exact .inr (.inr ⟨by simp, List.mem_singleton.mp h⟩)
  | cons m rest ih =>
      obtain ⟨hm, hrest⟩ := List.nodup_cons.mp hids
      unfold add at h
      split at h
      next heq =>
        rcases List.mem_cons.mp h with rfl | h
        · exact .inr (.inl ⟨m, List.mem_cons_self, heq, rfl⟩)
        · refine .inl ⟨List.mem_cons_of_mem _ h, fun hid => hm ?_⟩
          exact List.mem_map.mpr ⟨n, h, hid.trans heq.symm⟩
      next hne =>
        rcases List.mem_cons.mp h with rfl | h
        · exact .inl ⟨List.mem_cons_self, hne⟩
        · rcases ih hrest h with ⟨hn, hid⟩ | ⟨k, hk, hid, heq⟩ | ⟨hnew, heq⟩
          · exact .inl ⟨List.mem_cons_of_mem _ hn, hid⟩
          · exact .inr (.inl ⟨k, List.mem_cons_of_mem _ hk, hid, heq⟩)
          · exact .inr (.inr ⟨by simpa [Ne.symm hne] using hnew, heq⟩)

/-- Where nothing is new to the node of the subject, the map stays as it is. -/
theorem add_of_fixed (hids : (nodes.map (·.id)).Nodup) (hn : n ∈ nodes) (hid : n.id = subject)
    (hfixed : n.add predicate v = n) : nodes.add subject predicate v = nodes := by
  induction nodes with
  | nil => cases hn
  | cons m rest ih =>
      obtain ⟨hm, hrest⟩ := List.nodup_cons.mp hids
      unfold add
      rcases List.mem_cons.mp hn with rfl | hn
      · rw [if_pos hid, hfixed]
      · have hne : m.id ≠ subject := fun heq =>
          hm (List.mem_map.mpr ⟨n, hn, hid.trans heq.symm⟩)
        rw [if_neg hne, ih hrest hn]

/-- Enters a fact. -/
def enter (nodes : NodeMap) (f : Fact) : NodeMap :=
  nodes.add f.subject f.predicate f.value

end NodeMap

namespace Groups

variable {nodes : NodeMap} {facts : List Fact} {f : Fact}

/-- Without facts there are no nodes. -/
theorem nil : Groups [] [] :=
  ⟨FirstSeen.nil, nofun⟩

/-- **One more fact** is grouped with the others. -/
theorem enter (h : Groups nodes facts) (f : Fact) : Groups (nodes.enter f) (facts ++ [f]) := by
  constructor
  · rw [NodeMap.enter, NodeMap.ids_add, List.map_append]
    exact h.subjects.concat f.subject
  · intro n hn
    rcases NodeMap.mem_add h.subjects.nodup hn with ⟨hold, hid⟩ | ⟨m, hm, hid, rfl⟩ | ⟨hnew, rfl⟩
    · exact (h.describes n hold).other (Ne.symm hid)
    · exact (h.describes m hm).add hid.symm
    · have hsubject : f.subject ∉ facts.map (·.subject) := fun hmem =>
        hnew ((h.subjects.mem_iff f.subject).mpr hmem)
      exact (Node.describes_empty hsubject).add rfl

/-- A fact that is grouped already changes nothing. -/
theorem enter_mem (h : Groups nodes facts) (hf : f ∈ facts) : nodes.enter f = nodes := by
  obtain ⟨n, hn, hid⟩ := List.mem_map.mp
    ((h.subjects.mem_iff f.subject).mpr (List.mem_map_of_mem hf))
  exact NodeMap.add_of_fixed h.subjects.nodup hn hid ((h.describes n hn).add_mem hf hid.symm)

/-- Facts that are entered one after the other are grouped. -/
theorem foldl_enter (h : Groups nodes facts) (more : List Fact) :
    Groups (more.foldl NodeMap.enter nodes) (facts ++ more) := by
  induction more generalizing nodes facts with
  | nil => rwa [List.append_nil]
  | cons f rest ih =>
      rw [List.append_cons]
      exact ih (h.enter f)

end Groups

/-! ## Quads -/

namespace NodeMap

variable {nodes : NodeMap} {quads quads' : List Quad} {q : Quad}

/-- A quad whose terms suit their positions enters what it says. -/
theorem addQuad_grounded (h : q.Grounded) (nodes : NodeMap) :
    nodes.addQuad q = .ok (nodes.enter q.fact) := by
  obtain ⟨hsubject, hpredicate, hobject⟩ := h
  have hid : subjectId q.subject = .ok q.fact.subject := by
    unfold subjectId Quad.fact
    rcases hsubject with h | h <;> simp [h]
  have hvalue : NodeValue.ofTerm q.object = .ok q.fact.value := by
    unfold NodeValue.ofTerm Quad.fact
    rcases hobject with h | h | h <;> simp [h]
  unfold addQuad
  rw [hid, hvalue]
  simp only [hpredicate, bind, Except.bind]
  rfl

/-- Every other quad is refused, whatever there is already. -/
theorem addQuad_not_grounded (h : ¬ q.Grounded) : ∃ e, ∀ nodes, addQuad nodes q = .error e := by
  unfold addQuad
  cases hsubject : subjectId q.subject with
  | error e => exact ⟨e, fun _ => rfl⟩
  | ok subject =>
      by_cases hpredicate : q.predicate.kind = .namedNode
      · cases hvalue : NodeValue.ofTerm q.object with
        | error e => exact ⟨e, fun _ => by simp [hpredicate, bind, Except.bind]⟩
        | ok v =>
            refine (h ⟨?_, hpredicate, ?_⟩).elim
            · unfold subjectId at hsubject
              split at hsubject <;> simp_all
            · unfold NodeValue.ofTerm at hvalue
              split at hvalue <;> simp_all
      · exact ⟨.predicateNotNamed q.predicate.value,
          fun _ => by simp [hpredicate, bind, Except.bind]⟩

/-- Quads are added exactly if all their terms suit, and then as the facts that they say. -/
theorem foldlM_addQuad_eq_ok {after : NodeMap} :
    quads.foldlM addQuad nodes = .ok after ↔
      (∀ q ∈ quads, q.Grounded) ∧ (quads.map Quad.fact).foldl enter nodes = after := by
  induction quads generalizing nodes with
  | nil => simp [pure, Except.pure]
  | cons q rest ih =>
      rw [List.foldlM_cons]
      by_cases hq : q.Grounded
      · rw [addQuad_grounded hq]
        simpa [hq, bind, Except.bind] using ih
      · obtain ⟨e, he⟩ := addQuad_not_grounded hq
        simp [he, hq, bind, Except.bind]

/-- **Quads are grouped** if the terms of all of them suit their positions. -/
theorem ofQuads_eq_ok :
    ofQuads quads = .ok nodes ↔
      (∀ q ∈ quads, q.Grounded) ∧ (quads.map Quad.fact).foldl enter [] = nodes :=
  foldlM_addQuad_eq_ok

/-- The nodes of quads group what the quads say. -/
theorem groups_of_ofQuads (h : ofQuads quads = .ok nodes) :
    Groups nodes (quads.map Quad.fact) := by
  obtain ⟨-, rfl⟩ := ofQuads_eq_ok.mp h
  exact Groups.nil.foldl_enter _

/-- Quads have no nodes exactly if a term of one does not suit its position. -/
theorem ofQuads_eq_error :
    (∃ e, ofQuads quads = .error e) ↔ ∃ q ∈ quads, ¬ q.Grounded := by
  cases hquads : ofQuads quads with
  | error e =>
      have hnone : ¬ ∀ q ∈ quads, q.Grounded := fun hall => by
        rw [ofQuads_eq_ok.mpr ⟨hall, rfl⟩] at hquads
        cases hquads
      simpa using hnone
  | ok nodes => simpa using (ofQuads_eq_ok.mp hquads).1

/-- Quads with some of them said again behind their first place. -/
inductive Repeats (quads : List Quad) : List Quad → Prop
  | refl : Repeats quads quads
  | again {before after : List Quad} {q : Quad} (h : Repeats quads (before ++ after))
      (hq : q ∈ before) : Repeats quads (before ++ q :: after)

/-- A quad that is said again makes no difference. -/
theorem ofQuads_again {before after : List Quad} (hq : q ∈ before) :
    ofQuads (before ++ q :: after) = ofQuads (before ++ after) := by
  unfold ofQuads
  rw [List.foldlM_append, List.foldlM_append]
  cases hbefore : before.foldlM addQuad [] with
  | error e => rfl
  | ok nodes =>
      have hgrounded := (ofQuads_eq_ok.mp hbefore).1 q hq
      have hsame : nodes.enter q.fact = nodes :=
        (groups_of_ofQuads hbefore).enter_mem (List.mem_map_of_mem hq)
      simp only [bind, Except.bind, List.foldlM_cons]
      rw [addQuad_grounded hgrounded, hsame]

/-- Repeating quads changes nothing. -/
theorem Repeats.ofQuads_eq (h : Repeats quads quads') : ofQuads quads' = ofQuads quads := by
  induction h with
  | refl => rfl
  | again h hq ih => exact (ofQuads_again hq).trans ih

/-- **Grouping loses nothing and doubles nothing.**  Quads are refused exactly if the terms
of one of them do not suit their positions; else their nodes have exactly what they say,
each once and in first-seen order; and saying quads again makes no difference. -/
theorem ofQuads_groups (quads : List Quad) :
    ((∃ e, ofQuads quads = .error e) ↔ ∃ q ∈ quads, ¬ q.Grounded) ∧
      (∀ nodes, ofQuads quads = .ok nodes → Groups nodes (quads.map Quad.fact)) ∧
      ∀ quads', Repeats quads quads' → ofQuads quads' = ofQuads quads :=
  ⟨ofQuads_eq_error, fun _ h => groups_of_ofQuads h, fun _ h => h.ofQuads_eq⟩

/-- A value said twice, and a type of a blank node. -/
theorem ofQuads_groups_again :
    let value : Quad := ⟨.named "http://example.org/a", .named "http://example.org/p",
      .literal "x" none, none⟩
    let type : Quad := ⟨.blank "b", .named Vocabulary.rdfType, .named "http://example.org/C", none⟩
    let nodes : NodeMap :=
      [⟨"http://example.org/a", [], [("http://example.org/p", [.literal "x" none none])]⟩,
        ⟨"_:b", ["http://example.org/C"], []⟩]
    ofQuads [value, type, value] = .ok nodes ∧
      Groups nodes ([value, type, value].map Quad.fact) ∧
      ofQuads [value, type, value] = ofQuads [value, type] := by
  intro value type nodes
  obtain ⟨-, hgroups, hagain⟩ := ofQuads_groups [value, type, value]
  obtain ⟨-, -, hrepeats⟩ := ofQuads_groups [value, type]
  have hok : ofQuads [value, type, value] = .ok nodes := by cbv
  have hstart : Repeats [value, type] ([value, type] ++ []) := .refl
  have hrepeat : Repeats [value, type] ([value, type] ++ [value]) :=
    hstart.again List.mem_cons_self
  exact ⟨hok, hgroups nodes hok, hrepeats _ hrepeat⟩

end NodeMap

end ObjectGraph
