import ObjectGraph.Proofs.Compile.Collisions
import ObjectGraph.Proofs.Decode.Identity
import ObjectGraph.Proofs.Mapper.Expansion
import ObjectGraph.Proofs.Namespaces

/-!
# Whom follow-ups ask about

A row's object carries one identity, which is that of the root only if the root
shows its own.  It is written in short form, expanded when the errands are made and
expanded once more when the follow-up is compiled; the identity of a node is
expanded only then.  So follow-ups ask about the resource that a row or a node is
about exactly if that resource comes back from these steps (`subjects_asked`), and
there are resources that do not (`asks_about_another`).
-/

namespace ObjectGraph

open Json (Value Object)
open Sparql (Var)

namespace Part

/-- Whether the objects of an entity show its identity: it has a variable under
`@id`, or `@id` is selected and a condition fixes it. -/
def ShowsIdentity (p : Part) : Prop :=
  (∃ x, p.fragment.props.var? "@id" = some x) ∨
    ("@id" ∈ p.fragment.selected ∧ ∃ v, p.entity.condition? "@id" = some (.value v))

/-- An entity that shows its identity shows the short form of its subject. -/
theorem identityIn?_of_shows {ns : Namespaces} {config : Config} {options : CompileOptions}
    {a a' : Allocator} {row : Row} {p : Part} {iri : String}
    (hcompile : p.entity.compile ns config options a = .ok (p.fragment, a'))
    (hshows : p.ShowsIdentity) (hsubject : p.subjectIn? row = some iri) :
    Decode.identityIn? ns row p = some (.str (ns.abbreviate iri)) := by
  have hreads := Entity.compile_reads hcompile
  have hvar : ∀ x, p.fragment.props.var? "@id" = some x → p.fragment.subject = .var x :=
    fun x hx => hreads.identity x (Assoc.mem_of_get? hx)
  rcases hshows with ⟨x, hx⟩ | ⟨hselected, v, hv⟩
  · simp only [subjectIn?, hvar x hx] at hsubject
    obtain ⟨b, hb, rfl⟩ := Option.map_eq_some_iff.mp hsubject
    obtain ⟨hrow, hiri⟩ := Option.filter_eq_some_iff.mp hb
    simp [Decode.identityIn?, hx, hrow, Decode.binding, hiri]
  · obtain ⟨b, hterm⟩ := Entity.compile_subject hcompile
    unfold Entity.subjectTerm at hterm
    rw [hv] at hterm
    dsimp only at hterm
    cases href : referenceIri? v with
    | none => simp [href] at hterm
    | some i =>
        simp only [href, Except.ok.injEq, Prod.mk.injEq] at hterm
        have hnone : p.fragment.props.var? "@id" = none := by
          cases hx : p.fragment.props.var? "@id" with
          | none => rfl
          | some x => simp [hvar x hx] at hterm
        obtain rfl : ns.expand i = iri := by simpa [subjectIn?, ← hterm.1] using hsubject
        have hkind : (p.entity.schema.kindOf "@id").isReference = true := rfl
        simp [Decode.identityIn?, hnone, hselected, Decode.fixedValue?_of_condition hv,
          Decode.pinnedValue, href, hkind]

end Part

namespace Mapper

variable {m : Mapper}

/-- A query that asks about a resource: the follow-up for a key of an entity whose
subject is fixed to it. -/
def Asks (m : Mapper) (params : Object) (e : Entity) (key iri : String) (q : IssuedQuery) :
    Prop :=
  ∃ id f part, FollowUp.compile m.ns m.config e key id = .ok f ∧ f.plan.parts = [part] ∧
    part.fragment.subject = .iri iri ∧ q = ⟨.select, f.plan.text m.ns m.config, params⟩

/-- An errand asks about its subject, expanded once more. -/
theorem asks_query (e : Errand) (params : Object) :
    m.Asks params e.root e.key (m.ns.expand e.subject) (e.query m params) := by
  obtain ⟨f, part, hf, hparts, hsubject⟩ :=
    FollowUp.compile_spec m.ns m.config e.root e.key e.subject
  have hsame : e.followUp m.ns m.config = f := by
    simpa [hf] using (e.compile_followUp m.ns m.config).symm
  exact ⟨e.subject, f, part, hf, hparts, hsubject, by rw [← hsame]; rfl⟩

/-- The errands of an object are for the array keys of the root and for the subject
that the object was found with. -/
theorem mem_forObject {parts : List Part} {found : Option String × Object} {e : Errand}
    (h : e ∈ Errand.forObject parts found) :
    ∃ root others, parts = root :: others ∧ e.root = root.entity ∧
      e.key ∈ root.fragment.arrays ∧ found.1 = some e.subject := by
  unfold Errand.forObject at h
  split at h
  next root others id hfound =>
    split at h
    next => cases h
    next =>
      obtain ⟨key, hkey, rfl⟩ := List.mem_map.mp h
      exact ⟨root, others, rfl, rfl, hkey, hfound⟩
  next => cases h

/-- Behind its main query, a search issues the queries of errands only. -/
theorem issued_errand {s : Search} {r : Except MapperError (List Object)}
    {log : List IssuedQuery} (h : Answered m (.ok s) r log) {q : IssuedQuery}
    (hq : q ∈ log.tail) :
    ∃ found, s.decoded = .ok found ∧ ∃ d ∈ found, ∃ e ∈ Errand.forObject s.parts d,
      q = e.query m s.collection.options := by
  cases h with
  | unanswered => cases hq
  | filled hfound =>
      obtain ⟨e, he, rfl⟩ := List.mem_map.mp hq
      obtain ⟨d, hd, he⟩ := List.mem_flatMap.mp he
      exact ⟨_, hfound, d, hd, e, he, rfl⟩
  | @cut _ found before behind last _ hfound herrands =>
      obtain ⟨e, he, rfl⟩ := List.mem_map.mp hq
      have hmem : e ∈ found.flatMap (Errand.forObject s.parts) := by
        rw [herrands, ← List.singleton_append, ← List.append_assoc]
        exact List.mem_append_left behind he
      obtain ⟨d, hd, he⟩ := List.mem_flatMap.mp hmem
      exact ⟨_, hfound, d, hd, e, he, rfl⟩

/-- The identity that a row's object shows is that of its first entity with one. -/
theorem subjectOf_rowObject {config : Config} {options : CompileOptions} {c : Collection}
    {parts : List Part} (hparts : c.compileParts m.ns config options = .ok parts) (row : Row) :
    m.subjectOf (Decode.rowObject m.ns parts row) =
      ((parts.findSome? (Decode.identityIn? m.ns row)).bind Value.asText?).map m.ns.expand := by
  unfold subjectOf
  rw [Decode.get?_rowObject]
  intro p hp
  obtain ⟨_, _, hcompile⟩ := Entity.compileEach_part hparts p hp
  exact Entity.compile_reads hcompile

/-- A row in which the root shows its identity is found with the short form of the
subject, expanded. -/
theorem subjectOf_of_shows {config : Config} {options : CompileOptions} {c : Collection}
    {root : Part} {others : List Part} {row : Row} {iri : String}
    (hparts : c.compileParts m.ns config options = .ok (root :: others))
    (hshows : root.ShowsIdentity) (hsubject : root.subjectIn? row = some iri) :
    m.subjectOf (Decode.rowObject m.ns (root :: others) row) =
      some (m.ns.expand (m.ns.abbreviate iri)) := by
  obtain ⟨_, _, hcompile⟩ := Entity.compileEach_part hparts root (by simp)
  rw [subjectOf_rowObject hparts, List.findSome?_cons,
    Part.identityIn?_of_shows hcompile hshows hsubject]
  rfl

/-- **Whom follow-ups ask about.**  A follow-up for a row asks about the identity of the
row's object, expanded twice; where the root shows its identity, that is the subject that
the row has for the root exactly if the namespace map returns it.  A follow-up for a node
of a graph asks about the identity of the node, expanded once. -/
theorem subjects_asked (m : Mapper) (request : CollectionRequest) {c : Collection}
    (hbuild : Collection.build m.catalog m.config request = .ok c) :
    (∀ plan rows, c.compileSelect m.ns m.config = .ok plan →
      m.endpoint.select (plan.text m.ns m.config) c.options = .ok rows →
      ∀ q ∈ (m.selectObjects request).results.2.tail,
        ∃ root others row key shown, plan.parts = root :: others ∧ row ∈ rows ∧
          key ∈ root.fragment.arrays ∧
          plan.parts.findSome? (Decode.identityIn? m.ns row) = some (.str shown) ∧
          m.Asks c.options root.entity key (m.ns.expand (m.ns.expand shown)) q ∧
          ∀ iri, root.subjectIn? row = some iri → root.ShowsIdentity →
            (m.ns.expand (m.ns.expand shown) = iri ↔ m.ns.Returns iri)) ∧
    (∀ plan quads, c.compileConstruct m.ns m.config = .ok plan →
      m.endpoint.construct (plan.text m.ns m.config) c.options = .ok quads →
      ∀ q ∈ (m.constructObjects request).results.2.tail,
        ∃ root others nodes n key, plan.parts = root :: others ∧
          NodeMap.ofQuads quads = .ok nodes ∧
          n ∈ (Decode.groupNodes m.ns nodes plan.parts).head?.getD [] ∧
          key ∈ root.fragment.arrays ∧
          m.Asks c.options root.entity key (m.ns.expand n.id) q) := by
  constructor
  · intro plan rows hplan hrows q hq
    have hcompiled := Collection.compileParts_of_select hplan
    have hsearch := outcome_answered m (m.selection request)
    rw [← selectObjects_results] at hsearch
    simp only [selection, searchBy, hbuild, hplan, hrows, bind, Except.bind] at hsearch
    obtain ⟨found, hfound, d, hd, e, he, rfl⟩ := issued_errand hsearch hq
    obtain rfl := Except.ok.inj hfound
    obtain ⟨object, hobject, rfl⟩ := List.mem_map.mp hd
    obtain ⟨row, hrow, rfl⟩ := List.mem_map.mp hobject
    obtain ⟨root, others, hparts, hroot, hkey, hsubject⟩ := mem_forObject he
    dsimp only at hparts
    rw [← subjectOf_eq, subjectOf_rowObject hcompiled] at hsubject
    obtain ⟨shown, hshown, hexpand⟩ : ∃ shown,
        plan.parts.findSome? (Decode.identityIn? m.ns row) = some (.str shown) ∧
          m.ns.expand shown = e.subject := by
      obtain ⟨shown, htext, hexpand⟩ := Option.map_eq_some_iff.mp hsubject
      obtain ⟨v, hv, hshown⟩ := Option.bind_eq_some_iff.mp htext
      cases v with
      | str s =>
          obtain rfl := Option.some.inj hshown
          exact ⟨s, hv, hexpand⟩
      | _ => cases hshown
    refine ⟨root, others, row, e.key, shown, hparts, hrow, hkey, hshown, ?_, ?_⟩
    · rw [hexpand, ← hroot]
      exact asks_query e c.options
    · intro iri hiri hshows
      obtain ⟨_, _, hcompile⟩ := Entity.compileEach_part hcompiled root (by simp [hparts])
      have hroot := Part.identityIn?_of_shows hcompile hshows hiri
      rw [hparts, List.findSome?_cons, hroot] at hshown
      obtain rfl : m.ns.abbreviate iri = shown := by simpa using hshown
      rfl
  · intro plan quads hplan hquads q hq
    have hsearch := outcome_answered m (m.construction request)
    rw [← constructObjects_results] at hsearch
    simp only [construction, searchBy, hbuild, hplan, hquads, bind, Except.bind] at hsearch
    obtain ⟨found, hfound, d, hd, e, he, rfl⟩ := issued_errand hsearch hq
    obtain ⟨root, others, hparts, hroot, hkey, hsubject⟩ := mem_forObject he
    dsimp only at hfound hparts
    split at hfound
    next => cases hfound
    next =>
      cases hroots : Decode.graphNodes m.ns m.config c plan.parts quads with
      | error x => simp [hroots, Except.map] at hfound
      | ok roots =>
          rw [hroots] at hfound
          obtain rfl := Except.ok.inj hfound
          obtain ⟨node, hnode, rfl⟩ := List.mem_map.mp hd
          obtain ⟨nodes, hnodes, n, hn, hid⟩ := Decode.graphNodes_mem hroots hnode
          have hsame : n.id = e.subject := hid ▸ Option.some.inj hsubject
          refine ⟨root, others, nodes, n, e.key, hparts, hnodes, hn, hkey, ?_⟩
          rw [hsame, ← hroot]
          exact asks_query e c.options

/-- A search over an endpoint that always answers issues the queries of all errands. -/
theorem tail_selectObjects {request : CollectionRequest} {c : Collection} {plan : SelectPlan}
    {rows : List Row} (hbuild : Collection.build m.catalog m.config request = .ok c)
    (hplan : c.compileSelect m.ns m.config = .ok plan)
    (hanswers : ∀ text params, m.endpoint.select text params = .ok rows) :
    (m.selectObjects request).results.2.tail =
      ((Decode.solutions m.ns plan.parts rows).flatMap fun object =>
        Errand.forObject plan.parts (m.subjectOf object, object)).map (·.query m c.options) := by
  have hsearch := outcome_answered m (m.selection request)
  rw [← selectObjects_results] at hsearch
  simp only [selection, searchBy, hbuild, hplan, hanswers, bind, Except.bind] at hsearch
  generalize (m.selectObjects request).results.1 = found at hsearch
  generalize (m.selectObjects request).results.2 = log at hsearch
  cases hsearch with
  | unanswered h => cases h
  | filled h =>
      cases h
      simp [List.flatMap_map, subjectOf_eq]
  | cut _ _ _ he =>
      unfold Errand.answer at he
      rw [hanswers] at he
      cases he

/-- What an endpoint that knows one thing answers, be it asked for things or for tags. -/
def thingRow (iri : String) : Row :=
  [("eIri0", .uri iri), ("tags0", .literal "tag")]

/-- A mapper over an endpoint that knows one thing. -/
def overThing (ns : Namespaces) (iri : String) : Mapper where
  endpoint :=
    { select := fun _ _ => .ok [thingRow iri]
      construct := fun _ _ => .ok []
      update := fun _ _ => .ok .null }
  catalog := ⟨[]⟩
  ns := ns
  config := {}

/-- One follow-up is issued for the thing, with its IRI in short form and expanded. -/
theorem tail_overThing (ns : Namespaces) (iri : String)
    (hblank : ¬ ['_', ':'] <+: (ns.expand (ns.abbreviate iri)).toList) :
    ∃ c plan root, Collection.build ⟨[]⟩ {} taggedThings = .ok c ∧
      c.compileSelect ns {} = .ok plan ∧ plan.parts = [root] ∧
      root.subjectIn? (thingRow iri) = some iri ∧ root.ShowsIdentity ∧
      root.fragment.arrays = ["tags"] ∧
      ((overThing ns iri).selectObjects taggedThings).results.2.tail =
        [Errand.query (overThing ns iri) c.options
          ⟨root.entity, ns.expand (ns.abbreviate iri), "tags"⟩] := by
  obtain ⟨c, plan, root, hbuild, hplan, hparts, harrays, hsubject, hshows⟩ :
      ∃ c plan root, Collection.build ⟨[]⟩ {} taggedThings = .ok c ∧
        c.compileSelect ns {} = .ok plan ∧ plan.parts = [root] ∧
        root.fragment.arrays = ["tags"] ∧ root.fragment.subject = .var ⟨"eIri0"⟩ ∧
        root.ShowsIdentity :=
    ⟨_, _, _, rfl, rfl, rfl, rfl, rfl, .inl ⟨_, rfl⟩⟩
  have hbound : root.subjectIn? (thingRow iri) = some iri := by
    simp only [Part.subjectIn?, hsubject]
    rfl
  refine ⟨c, plan, root, hbuild, hplan, hparts, hbound, hshows, harrays, ?_⟩
  have hcompiled := Collection.compileParts_of_select hplan
  have hanswers : ∀ text params,
      (overThing ns iri).endpoint.select text params = .ok [thingRow iri] := fun _ _ => rfl
  rw [tail_selectObjects hbuild hplan hanswers]
  rw [hparts] at hcompiled ⊢
  have hfound := subjectOf_of_shows (m := overThing ns iri) hcompiled hshows hbound
  simp only [Decode.solutions, List.map_cons, List.map_nil, List.flatMap_cons, List.flatMap_nil]
  rw [hfound]
  simp [Errand.forObject, overThing, hblank, harrays]

/-- Under a map that returns its IRI, the thing itself is asked for its tags. -/
theorem subjects_asked_taggedThings :
    ∃ m c plan root row q, m = overThing .exampleOrg "http://example.org/t1" ∧
      Collection.build m.catalog m.config taggedThings = .ok c ∧
      c.compileSelect m.ns m.config = .ok plan ∧ plan.parts = [root] ∧
      m.endpoint.select (plan.text m.ns m.config) c.options = .ok [row] ∧
      root.subjectIn? row = some "http://example.org/t1" ∧ root.ShowsIdentity ∧
      (m.selectObjects taggedThings).results.2.tail = [q] ∧
      m.Asks c.options root.entity "tags" "http://example.org/t1" q := by
  obtain ⟨c, plan, root, hbuild, hplan, hparts, hbound, hshows, harrays, htail⟩ :=
    tail_overThing .exampleOrg "http://example.org/t1" (by decide +kernel)
  have hreturns : Namespaces.exampleOrg.Returns "http://example.org/t1" := by
    refine Namespaces.returns_of_expand ?_ (by decide +kernel)
    intro e he
    obtain rfl := List.mem_singleton.mp he
    exact ⟨by decide, by decide, by decide⟩
  obtain ⟨root', _, row, key, shown, hparts', hrow, hkey, _, hasks, hexact⟩ :=
    (subjects_asked (overThing .exampleOrg "http://example.org/t1") taggedThings hbuild).1
      plan _ hplan rfl _ (htail ▸ List.mem_singleton_self _)
  obtain ⟨rfl, -⟩ := List.cons.inj (hparts ▸ hparts')
  obtain rfl : key = "tags" := by simpa [harrays] using hkey
  obtain rfl := List.mem_singleton.mp hrow
  rw [(hexact _ hbound hshows).mpr hreturns] at hasks
  exact ⟨_, c, plan, root, _, _, rfl, hbuild, hplan, hparts, rfl, hbound, hshows, htail, hasks⟩

/-- The example map with a prefix that is named like a scheme. -/
def misnamed : Namespaces :=
  Namespaces.exampleOrg.insert "urn" "http://urn.example/"

/-- An IRI that is a compact form for another one is not an expansion. -/
theorem expand_misnamed_ne (id : String) : misnamed.expand id ≠ "urn:x:1" := by
  have hother : ∀ stem rest : String, stem.toList.head? = some 'h' → stem ++ rest ≠ "urn:x:1" := by
    intro stem rest hhead heq
    have hlist := congrArg (fun s : String => s.toList.head?) heq
    simp [String.toList_append, List.head?_append, hhead] at hlist
  intro h
  unfold Namespaces.expand at h
  split at h
  next hparts =>
    subst h
    exact absurd hparts (by decide)
  next name rest hparts =>
    split at h
    next stem hstem =>
      have hentries : misnamed.entries =
          [("ex", "http://example.org/"), ("urn", "http://urn.example/")] := by decide +kernel
      have hmem := Namespaces.get?_eq_some.mp hstem
      rw [hentries] at hmem
      simp only [List.mem_cons, Prod.mk.injEq, List.not_mem_nil, or_false] at hmem
      rcases hmem with ⟨-, rfl⟩ | ⟨-, rfl⟩ <;> exact hother _ rest (by decide) h
    next hstem =>
      subst h
      have hurn : Iri.compactParts? "urn:x:1" = some ("urn", "x:1") := rfl
      rw [hurn] at hparts
      cases hparts
      exact absurd hstem (by decide)

/-- Under a map with a prefix that is named like the scheme of its IRI, another resource
is asked for the tags of the thing; no follow-up can ask the thing itself. -/
theorem asks_about_another :
    ∃ m c plan root row q, m = overThing misnamed "urn:x:1" ∧
      Collection.build m.catalog m.config taggedThings = .ok c ∧
      c.compileSelect m.ns m.config = .ok plan ∧ plan.parts = [root] ∧
      m.endpoint.select (plan.text m.ns m.config) c.options = .ok [row] ∧
      root.subjectIn? row = some "urn:x:1" ∧ root.ShowsIdentity ∧
      (m.selectObjects taggedThings).results.2.tail = [q] ∧
      m.Asks c.options root.entity "tags" "http://urn.example/x:1" q ∧
      ∀ key q', ¬ m.Asks c.options root.entity key "urn:x:1" q' := by
  have honce : misnamed.expand (misnamed.abbreviate "urn:x:1") = "http://urn.example/x:1" := by
    decide +kernel
  have htwice : misnamed.expand "http://urn.example/x:1" = "http://urn.example/x:1" := by
    decide +kernel
  obtain ⟨c, plan, root, hbuild, hplan, hparts, hbound, hshows, -, htail⟩ :=
    tail_overThing misnamed "urn:x:1" (by rw [honce]; decide +kernel)
  rw [honce] at htail
  have hasks : (overThing misnamed "urn:x:1").Asks c.options root.entity "tags"
      (misnamed.expand "http://urn.example/x:1") _ :=
    asks_query ⟨root.entity, "http://urn.example/x:1", "tags"⟩ c.options
  rw [htwice] at hasks
  refine ⟨_, c, plan, root, _, _, rfl, hbuild, hplan, hparts, rfl, hbound, hshows, htail,
    hasks, ?_⟩
  rintro key q' ⟨id, f, part, hf, hone, hsubject, -⟩
  obtain ⟨f', part', hf', hone', hsubject'⟩ :=
    FollowUp.compile_spec misnamed {} root.entity key id
  obtain rfl := Except.ok.inj (hf'.symm.trans hf)
  obtain rfl := List.singleton_inj.mp (hone'.symm.trans hone)
  rw [hsubject'] at hsubject
  exact expand_misnamed_ne id (by injection hsubject)

end Mapper

end ObjectGraph
