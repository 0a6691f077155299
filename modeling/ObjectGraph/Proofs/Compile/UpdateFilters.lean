import ObjectGraph.Proofs.Compile.Demand
import ObjectGraph.Proofs.Compile.Matches

/-!
# The filters of an update

An update walks over the conditions of an entity by itself.  Every condition on a
key that asks for a filter has it in the update too, on the variable that the
update matches the key with (`compileUpdate_of_var`).  A relation on the identity
is passed over: as long as no other entity takes the name of the subject for
itself, no filter of the update starts with the subject (`Matches.foldl_lead`),
so the update of such an entity matches more than its fragment does.

The walk takes fresh names only.  Hence the shared names of an update are those of
identities, and which entities came before decides which names these are.
-/

namespace ObjectGraph

open Sparql (Var Term Triple Expression Pattern Operation Renaming)

namespace Entity

namespace Matches

variable {ns : Namespaces} {e : Entity} {s : Var} {m : Matches}

/-- A filter on the variable of a key starts with it, or is a test for existence. -/
theorem conditionFilter_lead {subject : Term} {mapping : Mapping} {key : String} {x : Var}
    {c : Condition} {a : Allocator} {g : Expression}
    (h : (Draft.conditionFilter ns e subject mapping key x c a).1 = some g) :
    g.lead? = some x ∨ g.lead? = none := by
  rcases Draft.conditionFilter_cases ns e subject mapping key x c a with ⟨_, hlead⟩ | ⟨r, heq⟩
  · exact .inl (hlead g h)
  · rw [heq] at h
    obtain rfl := Option.some.inj h
    exact .inr (mapping.test_lead r subject _)

/-- A filter that an update adds compares another variable than the subject. -/
theorem foldl_lead {shared : List String} (hshared : s.name ∉ shared)
    (entries : List (String × Mapping × Condition)) (hm : Held s m.alloc)
    (hsame : m.alloc.shared = shared) (hold : ∀ g ∈ m.filters, g.lead? ≠ some s) :
    ∀ g ∈ (entries.foldl (addCondition ns e (.var s)) m).filters, g.lead? ≠ some s := by
  induction entries generalizing m with
  | nil => exact hold
  | cons entry rest ih =>
      refine ih ((Held.lasting s).fresh.addCondition _ entry hm) ?_ ?_
      · have hP : Enduring fun a => a.shared = shared := fun _ _ h => h
        exact hP.addCondition _ entry hsame
      · intro g hg
        rcases List.mem_append.mp hg with hg | hg
        · exact hold g hg
        have hne : s ≠ (m.alloc.join (entry.1 ++ toString e.index)).1 :=
          hm.ne_join (hsame ▸ hshared) _
        rcases conditionFilter_lead (Option.mem_toList.mp hg) with hlead | hlead
        · rw [hlead]
          exact fun heq => hne (Option.some.inj heq).symm
        · rw [hlead]
          exact nofun

end Matches

/-- The filter that a condition asks for of one subject, on its variable `x`, stands
in a group as a filter that the condition asks for of another one, renamed; and the
group matches the key of the condition with the new variable. -/
def Restated (ns : Namespaces) (e : Entity) (s : Var) (body : List Pattern)
    (entry : String × Condition) (x : Var) (g : Expression) : Prop :=
  ∃ y g', e.Demands ns s entry y g' ∧ .filter g' ∈ body ∧
    (∃ ρ : Renaming, ρ x = y ∧ g.rename ρ = g') ∧
    (entry.1 ≠ "@id" → entry.2.narrows = true → ∀ m, e.mapping? ns entry.1 = some m →
      Pattern.optionalTriple (m.triple (.var s) (.var y)) ∈ body)

variable {ns : Namespaces} {e : Entity} {s : Var} {a a' b : Allocator}

/-- The update of a variable subject restates the filter of each condition on a key;
and if the name of the subject is its own, no filter is about the subject itself. -/
theorem compileUpdate_of_var (hs : e.subjectTerm ns a = .ok (.var s, b)) (hb : Held s b) :
    ∃ delete optional filters a',
      e.compileUpdate ns a =
        .ok (.modify delete ((e.storedData ns).flatMap (e.dataTriples ns (.var s)))
          (updateGroup ((e.class? ns).toList.map (exactType (.var s))) optional filters), a') ∧
      (∀ t ∈ delete, ∃ d ∈ e.storedData ns, ∃ y, t = d.2.1.triple (.var s) (.var y)) ∧
      (∀ (s₀ : Var), ∀ entry ∈ e.conditions, entry.1 ≠ "@id" →
        ∀ x g, e.Demands ns s₀ entry x g →
          Restated ns e s
            (updateGroup ((e.class? ns).toList.map (exactType (.var s))) optional filters)
            entry x g) ∧
      (s.name ∉ b.shared → ∀ g ∈ filters, g.lead? ≠ some s) := by
  let found := (e.updateConditions ns).foldl (Matches.addCondition ns e (.var s)) { alloc := b }
  have hfound : Held s found.alloc := Matches.foldl_alloc (Held.lasting s).fresh _ _ hb
  obtain ⟨_, hfilters, hoptional, hdelete⟩ :=
    Matches.oldValues_spec (e := e) (Held.lasting s).fresh (.var s) (e.storedData ns) hfound
  let last := (found.oldValues e (.var s) (e.storedData ns)).2
  refine ⟨_, last.optional, last.filters, last.alloc, ?_, hdelete, ?_, ?_⟩
  · simp only [compileUpdate, hs, bind, Except.bind]
    rfl
  · intro s₀ entry hentry hid x g hg
    obtain ⟨mapping, hmapping, hmem⟩ := hg.mem_updateConditions hid hentry
    obtain ⟨m, hm, hextends⟩ :=
      Matches.foldl_visits (m := { alloc := b }) (Held.lasting s).fresh (.var s) hmem hb
    have hjoined : Held s (m.alloc.join (entry.1 ++ toString e.index)).2 :=
      (Held.lasting s).fresh.join _ hm
    obtain ⟨y, g', hput, hdemands, hrenamed, hnarrows⟩ :=
      hg.restate hid hmapping hjoined (m.alloc.join (entry.1 ++ toString e.index)).1
    refine ⟨y, g', hdemands, ?_, hrenamed, ?_⟩
    · rw [filter_mem_updateGroup, hfilters]
      apply hextends.filters
      exact List.mem_append_right _ (Option.mem_toList.mpr hput)
    · intro _ hnarrow mapping' hmapping'
      obtain rfl : mapping = mapping' := Option.some.inj (hmapping.symm.trans hmapping')
      rw [hnarrows hnarrow]
      apply optionalTriple_mem_updateGroup
      apply hoptional
      apply hextends.optional
      exact List.mem_append_right _ List.mem_cons_self
  · intro hown
    rw [hfilters]
    exact Matches.foldl_lead hown _ hb rfl (by simp)

/-- The names that an update shares are those of the identities of entities. -/
structure NamesIdentities (entities : List Entity) (a : Allocator) : Prop where
  sharedUsed : a.SharedUsed
  shared : ∀ n ∈ a.shared, ∃ d ∈ entities, ∃ name,
    d.identityName? = some name ∧ n = Allocator.nameOf name

/-- Fresh names are not shared. -/
theorem NamesIdentities.enduring (entities : List Entity) :
    Enduring (NamesIdentities entities) :=
  fun _ n h => ⟨h.sharedUsed.fresh n, h.shared⟩

/-- Identities that are named stay so among more entities. -/
theorem NamesIdentities.mono {before after : List Entity} (h : NamesIdentities before a)
    (hmore : before ⊆ after) : NamesIdentities after a where
  sharedUsed := h.sharedUsed
  shared n hn := by
    obtain ⟨d, hd, hname⟩ := h.shared n hn
    exact ⟨d, hmore hd, hname⟩

/-- With the subject of one more entity the names are still those of identities. -/
theorem NamesIdentities.subjectTerm {before : List Entity} (h : NamesIdentities before a)
    {subject : Term} (hs : e.subjectTerm ns a = .ok (subject, b)) :
    NamesIdentities (before ++ [e]) b := by
  have hmore : NamesIdentities (before ++ [e]) a := h.mono (List.subset_append_left _ _)
  rcases subjectTerm_cases hs with ⟨_, _, _, rfl⟩ | ⟨_, name, hname, _, rfl⟩ | ⟨_, _, _, rfl⟩
  · exact hmore
  · refine ⟨h.sharedUsed.share name, ?_⟩
    intro n hn
    rcases List.mem_cons.mp hn with rfl | hn
    · refine ⟨e, List.mem_append_right _ List.mem_cons_self, name, ?_, rfl⟩
      simp [identityName?, hname, Condition.sharedName?]
    · exact hmore.shared n hn
  · exact (enduring (before ++ [e])).join _ hmore

/-- After the update of one more entity the names are still those of identities. -/
theorem NamesIdentities.compileUpdate {before : List Entity} (h : NamesIdentities before a)
    {op : Operation} (hop : e.compileUpdate ns a = .ok (op, a')) :
    NamesIdentities (before ++ [e]) a' :=
  compileUpdate_alloc (enduring (before ++ [e])) hop fun _ _ hs => h.subjectTerm hs

/-- A subject that a relation restricts has a name that nobody shares, unless the
identity of an entity before it shares this very name. -/
theorem NamesIdentities.own_subject {before : List Entity} (h : NamesIdentities before a)
    (hown : ∀ d ∈ before, ∀ name, d.identityName? = some name →
      Allocator.nameOf name ≠ Allocator.nameOf ("eIri" ++ toString e.index))
    {relation : Relation} {values : List Json.Value}
    (hc : e.condition? "@id" = some (.related relation values)) (hfree : e.pin? ns = none)
    (hs : e.subjectTerm ns a = .ok (.var s, b)) : s.name ∉ b.shared := by
  rcases subjectTerm_cases hs with ⟨_, hpin, _⟩ | ⟨_, name, hname, _⟩ | ⟨_, _, hvar, rfl⟩
  · rw [hfree] at hpin
    cases hpin
  · rw [hc] at hname
    cases hname
  · obtain rfl : s = _ := Term.var.inj hvar
    rcases a.join_cases ("eIri" ++ toString e.index) with ⟨hmem, _⟩ | ⟨_, heq⟩
    · obtain ⟨d, hd, name, hname, hsame⟩ := h.shared _ hmem
      exact (hown d hd name hname hsame.symm).elim
    · rw [heq]
      intro hmem
      exact a.fresh_not_mem _ (h.sharedUsed _ hmem)

end Entity

namespace Collection

open Entity

variable {ns : Namespaces} {config : Config} {options : CompileOptions} {c : Collection}
  {parts : List Part}

/-- A collection with fragments has an update request. -/
theorem compileUpdate_total (h : c.compileParts ns config options = .ok parts) :
    ∃ ops, c.compileUpdate ns = .ok ops := by
  refine operations_total ?_ .empty
  intro e he a
  obtain ⟨b, made, hmade⟩ := compileEach_mem h e he
  obtain ⟨_, hb⟩ := subjectTerm_of_compile hmade
  obtain ⟨⟨subject, a'⟩, hs⟩ := subjectTerm_total hb a
  simp [Entity.compileUpdate, hs, bind, Except.bind]

/-- **The filters of an update.**  Take an entity with a variable subject.  Every
filter of its fragment narrows the type or is asked for by a condition, and what
the conditions on keys ask for stands in its update again.  Unless an entity before
it shares the name of its subject, all that conditions ask for stands there exactly
if no relation on the identity asks for anything. -/
theorem compileUpdate_filters (hparts : c.compileParts ns config options = .ok parts) {i : Nat}
    {p : Part} (hp : parts[i]? = some p) (hfree : p.entity.pin? ns = none) :
    ∃ s₀ s ops delete insert body,
      p.fragment.subject = .var s₀ ∧ c.compileUpdate ns = .ok ops ∧
      ops[i]? = some (.modify delete insert body) ∧
      .triples ((p.entity.class? ns).toList.map (exactType (.var s))) ∈ body ∧
      (∀ t ∈ delete, ∃ d ∈ p.entity.storedData ns, ∃ y, t = d.2.1.triple (.var s) (.var y)) ∧
      (∀ g ∈ p.fragment.filters, p.entity.NarrowsType ns s₀ g ∨
        ∃ entry ∈ p.entity.conditions, ∃ x, p.entity.Demands ns s₀ entry x g) ∧
      (∀ entry ∈ p.entity.conditions, entry.1 ≠ "@id" →
        ∀ x g, p.entity.Demands ns s₀ entry x g → p.entity.Restated ns s body entry x g) ∧
      ((∀ d ∈ c.entities.take i, ∀ name, d.identityName? = some name →
          Allocator.nameOf name ≠ Allocator.nameOf ("eIri" ++ toString p.entity.index)) →
        ((∀ entry ∈ p.entity.conditions, ∀ x g, p.entity.Demands ns s₀ entry x g →
            g ∈ p.fragment.filters → p.entity.Restated ns s body entry x g) ↔
          ∀ relation values, p.entity.condition? "@id" = some (.related relation values) →
            Filter.related s₀ ns .iri relation values = none)) := by
  obtain ⟨hentity, b, b', hb, hcompile⟩ :=
    compileEach_at Allocator.SharedUsed
      (fun _ _ _ _ _ ha h => Lasting.sharedUsed.compile h ha)
      (Lasting.sharedUsed.shareAll c.entities Allocator.sharedUsed_empty) hparts hp
  obtain ⟨s₀, hs₀, hfilters, hidentity⟩ := compile_filters hb hfree hcompile
  obtain ⟨ops, hops⟩ := compileUpdate_total hparts
  have hstart : NamesIdentities [] .empty := ⟨Allocator.sharedUsed_empty, nofun⟩
  obtain ⟨a, op, a', ha, hop, hat⟩ :=
    operations_at NamesIdentities (fun _ _ _ _ _ h h' => h.compileUpdate h') hstart hops hentity
  obtain ⟨made, hterm⟩ := subjectTerm_of_compile hcompile
  obtain ⟨⟨subject, a₁⟩, hterm⟩ := subjectTerm_total hterm a
  obtain ⟨s, rfl, hheld⟩ := subjectTerm_held ha.sharedUsed hfree hterm
  obtain ⟨delete, optional, filters, a₂, hmodify, hdelete, hrestated, hlead⟩ :=
    compileUpdate_of_var hterm hheld
  obtain ⟨rfl, rfl⟩ : op = _ ∧ a' = a₂ := by
    rw [hmodify] at hop
    simpa [eq_comm] using hop
  refine ⟨s₀, s, ops, delete, _, _, hs₀, hops, hat, List.mem_cons_self, hdelete, hfilters,
    hrestated s₀, ?_⟩
  intro hown
  constructor
  · intro hall relation values hc
    by_contra hsome
    obtain ⟨g, hg⟩ := Option.ne_none_iff_exists'.mp hsome
    obtain ⟨y, g', hagain, hmem, _⟩ :=
      hall _ (mem_of_condition? hc) s₀ g (.identity hc hg) (hidentity relation values g hc hg)
    cases hagain with
    | compare hkey | exist hkey => cases hkey
    | identity _ hg' =>
        have hown' : s.name ∉ a₁.shared := ha.own_subject hown hc hfree hterm
        exact hlead hown' g' (filter_mem_updateGroup.mp hmem) (Filter.related_lead ns .iri hg')
  · intro hnone entry hentry x g hg _
    refine hrestated s₀ entry hentry ?_ x g hg
    intro hid
    cases hg with
    | equal hkey | compare hkey | exist hkey =>
        obtain rfl : _ = "@id" := hid
        cases hkey
    | identity hc hg =>
        rw [hnone _ _ hc] at hg
        cases hg

/-- The name of some things is overwritten. -/
def renamedThing (conditions : Assoc Condition) : Entity where
  index := 0
  schema :=
    { targetClass := some "ex:Thing"
      context := [("name", .str "ex:name")]
      properties := [("name", { type := some "string" })] }
  conditions := conditions
  data := [("name", .str "n")]

/-- A condition on the name is restated, and one on the identity beside it is not. -/
theorem compileUpdate_filters_renamedThing :
    let old : String × Condition := ("name", .value (.str "old"))
    let e := renamedThing [("@id", .related .any [.str "ex:t1"]), old]
    ∃ f s₀ s ops delete insert body,
      (single e).compileParts .exampleOrg {} {} = .ok [⟨e, f⟩] ∧ e.pin? .exampleOrg = none ∧
      f.subject = .var s₀ ∧ (single e).compileUpdate .exampleOrg = .ok ops ∧
      ops[0]? = some (.modify delete insert body) ∧
      e.Restated .exampleOrg s body old ⟨"name0"⟩
        (.eq (.var ⟨"name0"⟩) (.literal (.plain "old"))) ∧
      ¬ ∀ entry ∈ e.conditions, ∀ x g, e.Demands .exampleOrg s₀ entry x g → g ∈ f.filters →
        e.Restated .exampleOrg s body entry x g := by
  intro old e
  obtain ⟨f, hparts⟩ : ∃ f, (single e).compileParts .exampleOrg {} {} = .ok [⟨e, f⟩] := ⟨_, rfl⟩
  have hfree : e.pin? .exampleOrg = none := rfl
  obtain ⟨s₀, s, ops, delete, insert, body, hs₀, hops, hop, _, _, _, hrestated, hexact⟩ :=
    compileUpdate_filters hparts (i := 0) rfl hfree
  refine ⟨f, s₀, s, ops, delete, insert, body, hparts, hfree, hs₀, hops, hop, ?_, ?_⟩
  · exact hrestated old (by simp [e, renamedThing]) (by decide) _ _ (.equal rfl rfl rfl)
  · rw [hexact (by simp)]
    intro hnone
    cases hnone .any [.str "ex:t1"] rfl

/-- Deleting keeps to the resource that a relation on the identity picks, and so does
the fragment; the update of the same entity has no filter at all. -/
theorem update_without_identity_filter :
    ∃ found delete insert body any,
      let c := single (renamedThing [("@id", .related .any [.str "ex:t1"])])
      (c.compileParts .exampleOrg {} {}).map (·.map (·.fragment.filters)) = .ok [[found]] ∧
        c.compileDelete .exampleOrg {} =
          .ok [.modify [any] []
            [.triples [any, exactType any.subject "http://example.org/Thing"], .filter found]] ∧
        c.compileUpdate .exampleOrg = .ok [.modify delete insert body] ∧
        ∀ g, .filter g ∉ body := by
  let s : Var := ⟨"eIri0"⟩
  let name (value : Term) : Triple := ⟨.var s, .iri "http://example.org/name", value⟩
  refine ⟨.eq (.var s) (.iri "http://example.org/t1"), [name (.var ⟨"name0"⟩)],
    [name (.literal (.plain "n"))],
    [.triples [exactType (.var s) "http://example.org/Thing"],
      .optionalTriple (name (.var ⟨"name0"⟩))],
    ⟨.var s, .var ⟨"p0"⟩, .var ⟨"o0"⟩⟩, rfl, rfl, rfl, ?_⟩
  simp [Pattern.optionalTriple]

end Collection

end ObjectGraph
