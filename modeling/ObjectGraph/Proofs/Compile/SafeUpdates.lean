import ObjectGraph.Proofs.Compile.Matches

/-!
# Safe updates

An endpoint drops a triple of a template without a word if a variable in it is unbound, and
takes a blank node in inserted data for a new resource.  Neither can happen.  Inserted data
is ground, since its subject is an IRI and every value becomes an IRI or a literal
(`Encode.value_cases`).  What an update deletes it also asks for, triple by triple: the
variable of a data key is either new, and then its triple is asked for on the spot, or it is
that of a condition on the same key, which has asked for the same triple before
(`Matches.Backed`).  And the only variable in what an update inserts is the subject, which is
in the triple that the same key deletes.
-/

namespace ObjectGraph

open Json (Value)
open Sparql (Var Term Predicate Triple Expression Pattern Operation)

namespace Sparql

/-- Neither a variable nor a blank node. -/
def Term.IsGround : Term → Prop
  | .iri _ | .literal _ => True
  | .var _ | .blank _ => False

/-- No variable; paths have none. -/
def Predicate.IsGround : Predicate → Prop
  | .iri _ | .path _ => True
  | .var _ => False

structure Triple.IsGround (t : Triple) : Prop where
  subject : t.subject.IsGround
  predicate : t.predicate.IsGround
  object : t.object.IsGround

mutual

/-- The triples that bind variables outside of a pattern.  Those of filters, of computed
values and of sub-selects do not count. -/
def Pattern.matched : Pattern → List Triple
  | .triples ts => ts
  | .optional g | .group g | .service _ _ g => matchedTriples g
  | .filter _ | .bind _ _ | .subselect _ => []

/-- The triples that bind variables in a group. -/
def matchedTriples : List Pattern → List Triple
  | [] => []
  | p :: rest => p.matched ++ matchedTriples rest

end

/-- What a pattern of a group matches the group matches. -/
theorem mem_matchedTriples {g : List Pattern} {p : Pattern} {t : Triple} (hp : p ∈ g)
    (ht : t ∈ p.matched) : t ∈ matchedTriples g := by
  induction g with
  | nil => cases hp
  | cons q rest ih =>
      rw [matchedTriples]
      rcases List.mem_cons.mp hp with rfl | hp
      · exact List.mem_append_left _ ht
      · exact List.mem_append_right _ (ih hp)

/-- Inserted data is ground, and each variable of a template is in a triple that the group
matches. -/
def Operation.IsSafe : Operation → Prop
  | .insertData ts => ∀ t ∈ ts, t.IsGround
  | .modify delete insert body =>
    ∀ t ∈ delete ++ insert, ∀ v ∈ t.vars, ∃ u ∈ matchedTriples body, v ∈ u.vars

end Sparql

/-- The term of a value has no variable and no blank node. -/
theorem Encode.value_isGround (ns : Namespaces) (kind : Kind) (v : Value) :
    (Encode.value ns kind v).IsGround := by
  obtain ⟨i, h⟩ | ⟨l, h⟩ := Encode.value_cases ns kind v <;> rw [h] <;> trivial

namespace Mapping

variable {m : Mapping} {subject object : Term}

/-- The triple of a property is ground if its ends are. -/
theorem triple_isGround (m : Mapping) (hsubject : subject.IsGround) (hobject : object.IsGround) :
    (m.triple subject object).IsGround := by
  unfold triple
  split
  · exact ⟨hobject, trivial, hsubject⟩
  · exact ⟨hsubject, trivial, hobject⟩

/-- The variables of the triple of a property are its ends. -/
theorem mem_vars_triple {v : Var} :
    v ∈ (m.triple subject object).vars ↔ subject = .var v ∨ object = .var v := by
  have hends : ∀ t : Term, v ∈ t.asVar?.toList ↔ t = .var v := by
    intro t
    cases t <;> simp [Term.asVar?, eq_comm]
  unfold triple
  split <;> simp [Triple.vars, hends, or_comm]

end Mapping

/-- The variables of a triple with a fixed predicate are its ends. -/
theorem Sparql.Triple.mem_vars_of_iri {subject object : Term} {iri : String} {v : Var} :
    v ∈ (⟨subject, .iri iri, object⟩ : Triple).vars ↔ subject = .var v ∨ object = .var v :=
  Mapping.mem_vars_triple (m := ⟨iri, false⟩)

namespace Entity

variable {ns : Namespaces} {e : Entity} {subject : Term}

/-- The keys that an update looks at have predicates. -/
theorem mapping_of_updateConditions {entry : String × Mapping × Condition}
    (h : entry ∈ e.updateConditions ns) : e.mapping? ns entry.1 = some entry.2.1 := by
  obtain ⟨⟨key, condition⟩, -, hentry⟩ := List.mem_filterMap.mp h
  dsimp only at hentry
  split at hentry
  · cases hentry
  · cases condition with
    | shared | computed => cases hentry
    | value | related =>
        obtain ⟨m, hm, rfl⟩ := Option.map_eq_some_iff.mp hentry
        exact hm

/-- The keys that are stored have predicates. -/
theorem mapping_of_storedData {d : String × Mapping × Value} (h : d ∈ e.storedData ns) :
    e.mapping? ns d.1 = some d.2.1 := by
  obtain ⟨⟨key, v⟩, -, hd⟩ := List.mem_filterMap.mp h
  dsimp only at hd
  split at hd
  · cases hd
  · obtain ⟨m, hm, rfl⟩ := Option.map_eq_some_iff.mp hd
    exact hm

/-! ## Inserting -/

/-- The data triples of a ground subject are ground. -/
theorem dataTriples_isGround (hsubject : subject.IsGround) (d : String × Mapping × Value) :
    ∀ t ∈ e.dataTriples ns subject d, t.IsGround := by
  intro t ht
  obtain ⟨object, hobject, rfl⟩ := List.mem_map.mp ht
  obtain ⟨v, -, rfl⟩ := List.mem_map.mp hobject
  exact d.2.1.triple_isGround hsubject (Encode.value_isGround ns _ v)

/-- An insertion has the class of the data or of the schema, and then the data. -/
theorem compileInsert_cases {op : Operation} (h : e.compileInsert ns = .ok op) :
    ∃ s, e.dataText? "@id" = some s ∧ ∃ class_ : Option String,
      (∀ i ∈ class_, (∃ type, e.dataText? "@type" = some type ∧ ns.expand type = i) ∨
        e.schema.classIri? ns = some i) ∧
      op = .insertData (class_.toList.map (exactType (.iri (ns.expand s))) ++
        (e.storedData ns).flatMap (e.dataTriples ns (.iri (ns.expand s)))) := by
  unfold compileInsert at h
  split at h
  next => cases h
  next s hid =>
    refine ⟨s, hid, _, fun i hi => ?_, (Except.ok.inj h).symm⟩
    cases htype : e.dataText? "@type" with
    | none =>
        rw [htype] at hi
        exact .inr hi
    | some type =>
        rw [htype] at hi
        exact .inl ⟨type, rfl, Option.some.inj hi⟩

/-- Insertions are safe, since all that they insert is ground. -/
theorem compileInsert_isSafe {op : Operation} (h : e.compileInsert ns = .ok op) :
    op.IsSafe := by
  obtain ⟨s, -, class_, -, rfl⟩ := compileInsert_cases h
  intro t ht
  rcases List.mem_append.mp ht with ht | ht
  · obtain ⟨class_, -, rfl⟩ := List.mem_map.mp ht
    exact ⟨trivial, trivial, trivial⟩
  · obtain ⟨d, -, ht⟩ := List.mem_flatMap.mp ht
    have hsubject : (Term.iri (ns.expand s)).IsGround := trivial
    exact dataTriples_isGround hsubject d t ht

/-! ## Updating -/

namespace Matches

variable {m : Matches}

/-- The variable of each key is in the triple of the key, which is asked for. -/
def Backed (ns : Namespaces) (e : Entity) (subject : Term) (m : Matches) : Prop :=
  ∀ key x mapping, (key, x) ∈ m.vars → e.mapping? ns key = some mapping →
    mapping.triple subject (.var x) ∈ m.optional

/-- A condition leaves every variable backed and backs its own. -/
theorem Backed.addCondition (h : m.Backed ns e subject) {entry : String × Mapping × Condition}
    (hentry : e.mapping? ns entry.1 = some entry.2.1) :
    (m.addCondition ns e subject entry).Backed ns e subject := by
  intro key x mapping hmem hmapping
  rcases List.mem_append.mp hmem with hmem | hmem
  · exact List.mem_append_left _ (h key x mapping hmem hmapping)
  · obtain ⟨rfl, rfl⟩ := Prod.mk.inj (List.mem_singleton.mp hmem)
    obtain rfl : entry.2.1 = mapping := Option.some.inj (hentry.symm.trans hmapping)
    exact List.mem_append_right _ (List.mem_singleton_self _)

/-- Every key of a condition is matched with its own triple. -/
theorem backed_conditions {entries : List (String × Mapping × Condition)}
    (hentries : ∀ entry ∈ entries, e.mapping? ns entry.1 = some entry.2.1)
    (h : m.Backed ns e subject) :
    (entries.foldl (addCondition ns e subject) m).Backed ns e subject :=
  List.foldlRecOn entries _ h fun _ hm entry hentry => hm.addCondition (hentries entry hentry)

/-- The old value of a key is asked for by the triple of the key. -/
theorem Backed.oldValue (h : m.Backed ns e subject) {key : String} {mapping : Mapping}
    (hmapping : e.mapping? ns key = some mapping) :
    ∃ x m', m.oldValue e subject key mapping = (x, m') ∧ m'.Backed ns e subject ∧
      mapping.triple subject (.var x) ∈ m'.optional := by
  unfold Matches.oldValue
  cases hkey : Assoc.get? m.vars key with
  | some x => exact ⟨x, m, rfl, h, h key x mapping (Assoc.mem_of_get? hkey) hmapping⟩
  | none =>
      refine ⟨_, _, rfl, ?_, List.mem_append_right _ (List.mem_singleton_self _)⟩
      intro k y mapping' hmem hmapping'
      exact List.mem_append_left _ (h k y mapping' hmem hmapping')

/-- Each data key has a triple of old values, and all these triples are asked for. -/
theorem Backed.oldValues (h : m.Backed ns e subject) {data : List (String × Mapping × Value)}
    (hdata : ∀ d ∈ data, e.mapping? ns d.1 = some d.2.1) :
    (m.oldValues e subject data).1 ⊆ (m.oldValues e subject data).2.optional ∧
      ∀ d ∈ data, ∃ x, d.2.1.triple subject (.var x) ∈ (m.oldValues e subject data).1 := by
  induction data generalizing m with
  | nil => exact ⟨List.nil_subset _, nofun⟩
  | cons d rest ih =>
      obtain ⟨key, mapping, v⟩ := d
      obtain ⟨x, m', hvalue, hbacked, hasked⟩ := h.oldValue (hdata _ List.mem_cons_self)
      obtain ⟨hdelete, hkeys⟩ := ih hbacked fun d hd => hdata d (List.mem_cons_of_mem _ hd)
      have hkept : m'.optional ⊆ (m'.oldValues e subject rest).2.optional :=
        (oldValues_spec (P := fun _ => True) (fun _ _ _ => trivial) subject rest trivial).2.2.1
      simp only [Matches.oldValues, hvalue]
      refine ⟨List.cons_subset.mpr ⟨hkept hasked, hdelete⟩, ?_⟩
      intro d hd
      rcases List.mem_cons.mp hd with rfl | hd
      · exact ⟨x, List.mem_cons_self⟩
      · obtain ⟨y, hy⟩ := hkeys d hd
        exact ⟨y, List.mem_cons_of_mem _ hy⟩

end Matches

/-- An update asks for all that it deletes, and for the triple of every data key. -/
theorem compileUpdate_asks {a a' : Allocator} {op : Operation}
    (h : e.compileUpdate ns a = .ok (op, a')) :
    ∃ subject delete body,
      op = .modify delete ((e.storedData ns).flatMap (e.dataTriples ns subject)) body ∧
      delete ⊆ Sparql.matchedTriples body ∧
      ∀ d ∈ e.storedData ns, ∃ x, d.2.1.triple subject (.var x) ∈ delete := by
  obtain ⟨subject, b, -, rfl, -⟩ := compileUpdate_cases h
  have hempty : Matches.Backed ns e subject { alloc := b } := nofun
  have hbacked : (e.matchedConditions ns subject b).Backed ns e subject :=
    Matches.backed_conditions
      (fun _ hentry => mapping_of_updateConditions (keyConditions_subset subject hentry)) hempty
  obtain ⟨hdelete, hkeys⟩ := hbacked.oldValues fun d hd => mapping_of_storedData hd
  refine ⟨subject, _, _, rfl, fun t ht => ?_, hkeys⟩
  exact Sparql.mem_matchedTriples (optionalTriple_mem_updateGroup (hdelete ht))
    (by simp [Pattern.optionalTriple, Pattern.matched, Sparql.matchedTriples])

/-- Updates are safe. -/
theorem compileUpdate_isSafe {a a' : Allocator} {op : Operation}
    (h : e.compileUpdate ns a = .ok (op, a')) : op.IsSafe := by
  obtain ⟨subject, delete, body, rfl, hdelete, hkeys⟩ := compileUpdate_asks h
  intro t ht v hv
  rcases List.mem_append.mp ht with ht | ht
  · exact ⟨t, hdelete ht, hv⟩
  · obtain ⟨d, hd, ht⟩ := List.mem_flatMap.mp ht
    obtain ⟨object, hobject, rfl⟩ := List.mem_map.mp ht
    obtain ⟨value, -, rfl⟩ := List.mem_map.mp hobject
    obtain ⟨x, hx⟩ := hkeys d hd
    refine ⟨_, hdelete hx, Mapping.mem_vars_triple.mpr (.inl ?_)⟩
    rcases Mapping.mem_vars_triple.mp hv with hsubject | hvalue
    · exact hsubject
    · -- a value is no variable
      have hground := Encode.value_isGround ns (e.schema.kindOf d.1) value
      rw [hvalue] at hground
      exact hground.elim

/-! ## Deleting -/

/-- A deletion takes all triples of what the conditions of the entity find. -/
theorem compileDelete_cases {config : Config} {a a' : Allocator} {op : Operation}
    (h : e.compileDelete ns config a = .ok (op, a')) :
    ∃ f b, Entity.compile ns config {} { e with selection := some [], resolveType := false } a =
        .ok (f, b) ∧
      let p := b.fresh ("p" ++ toString e.index)
      let any : Triple :=
        ⟨f.subject, .var p.1, .var (p.2.fresh ("o" ++ toString e.index)).1⟩
      op = .modify [any] [] (.triples (any :: f.mandatory) :: f.filterPatterns) := by
  unfold compileDelete at h
  dsimp only at h
  cases hc : ({ e with selection := some [], resolveType := false } : Entity).compile ns config
      {} a with
  | error x => simp [hc, bind, Except.bind] at h
  | ok made =>
      obtain ⟨f, b⟩ := made
      simp only [hc, bind, Except.bind, Except.ok.injEq, Prod.mk.injEq] at h
      exact ⟨f, b, rfl, h.1.symm⟩

/-- Deletions are safe. -/
theorem compileDelete_isSafe {config : Config} {a a' : Allocator} {op : Operation}
    (h : e.compileDelete ns config a = .ok (op, a')) : op.IsSafe := by
  obtain ⟨f, b, -, rfl⟩ := compileDelete_cases h
  intro t ht v hv
  obtain rfl : t = _ := List.mem_singleton.mp ht
  exact ⟨_, List.mem_cons_self, hv⟩

end Entity

namespace Collection

open Entity

variable {ns : Namespaces} {config : Config} {c : Collection} {u : Sparql.Update}

/-- Every operation of an insertion is that of an entity. -/
theorem compileInsert_mem (h : c.compileInsert ns = .ok u) :
    ∀ op ∈ u, ∃ e ∈ c.entities, e.compileInsert ns = .ok op := by
  unfold compileInsert at h
  generalize c.entities = entities at h
  induction entities generalizing u with
  | nil =>
      cases h
      nofun
  | cons e rest ih =>
      rw [List.mapM_cons] at h
      cases hc : e.compileInsert ns with
      | error x => simp [hc, bind, Except.bind] at h
      | ok op =>
          cases hr : rest.mapM (Entity.compileInsert ns) with
          | error x => simp [hc, hr, bind, Except.bind] at h
          | ok others =>
              simp only [hc, hr, bind, Except.bind, pure, Except.pure, Except.ok.injEq] at h
              subst h
              intro op' hop'
              rcases List.mem_cons.mp hop' with rfl | hop'
              · exact ⟨e, List.mem_cons_self, hc⟩
              · obtain ⟨d, hd, hop'⟩ := ih hr op' hop'
                exact ⟨d, List.mem_cons_of_mem _ hd, hop'⟩

/-- **Updates are safe.**  Whatever is inserted as data has neither variables nor blank
nodes, and whatever an operation deletes or inserts for each solution has no variable that
its group leaves unbound in all of its triples. -/
theorem updates_safe
    (h : c.compileInsert ns = .ok u ∨ c.compileUpdate ns = .ok u ∨
      c.compileDelete ns config = .ok u) : ∀ op ∈ u, op.IsSafe := by
  rcases h with h | h | h
  · intro op hop
    obtain ⟨e, -, he⟩ := compileInsert_mem h op hop
    exact compileInsert_isSafe he
  · intro op hop
    obtain ⟨e, -, a, a', he⟩ := operations_mem h op hop
    exact compileUpdate_isSafe he
  · intro op hop
    obtain ⟨e, -, a, a', he⟩ := operations_mem h op hop
    exact compileDelete_isSafe he

/-- Some things that are found by their name get a new one and another place. -/
def restockedThing : Entity where
  index := 0
  schema :=
    { targetClass := some "ex:Thing"
      context := [("name", .str "ex:name"), ("place", .obj [("@reverse", .str "ex:holds")])]
      properties := [("name", { type := some "string" }), ("place", { format := some "iri" })] }
  conditions := [("name", .value (.str "old"))]
  data := [("name", .str "new"), ("place", .str "ex:shelf")]

/-- The name has the variable of its condition and the place one of its own; both are asked
for, and the subject with them. -/
theorem updates_safe_restockedThing :
    let thing : Term := .var ⟨"eIri0"⟩
    let name (x : Term) : Triple := ⟨thing, .iri "http://example.org/name", x⟩
    let place (x : Term) : Triple := ⟨x, .iri "http://example.org/holds", thing⟩
    let op : Operation :=
      .modify [name (.var ⟨"name0"⟩), place (.var ⟨"place0"⟩)]
        [name (.literal (.plain "new")), place (.iri "http://example.org/shelf")]
        [.triples [exactType thing "http://example.org/Thing"],
          .optionalTriple (name (.var ⟨"name0"⟩)), .optionalTriple (place (.var ⟨"place0"⟩)),
          .filter (.eq (.var ⟨"name0"⟩) (.literal (.plain "old")))]
    (single restockedThing).compileUpdate .exampleOrg = .ok [op] ∧ op.IsSafe := by
  intro thing name place op
  have hop : (single restockedThing).compileUpdate .exampleOrg = .ok [op] := rfl
  exact ⟨hop, @updates_safe .exampleOrg {} _ _ (.inr (.inl hop)) op (List.mem_singleton_self op)⟩

end Collection

end ObjectGraph
