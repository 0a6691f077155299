import ObjectGraph.Proofs.Compile.SafeUpdates
import ObjectGraph.Proofs.Compile.SharedNames
import ObjectGraph.Proofs.Sparql.Scope

/-!
# Templates stay in scope

The template of a CONSTRUCT, the projection of a sub-select and the group that all others
share are read off the fragments one by one.  They fit together because of two things that
hold of every fragment: each of its triples speaks of the subject, and each triple of a
computed key has the variable of a computed value (`Fragment.Anchored`).

So the template has no variable that the patterns do not bind (`Anchored.mem_scope`), a
sub-select projects just what its patterns bind (`mem_boundVars`), and the WHERE clause has
in scope all that the patterns of any of the fragments have, be they in a sub-select, at a
service or in the open (`mem_scope_body`).
-/

namespace ObjectGraph

open Sparql (Var Term Triple Pattern Select Solution Engine groupScope groupSolutions
  groupScope_append groupScope_flatMap mem_groupScope)

namespace Fragment

/-- Every triple speaks of the subject, and those of computed keys of computed values. -/
structure Anchored (f : Fragment) : Prop where
  subject : ∀ t ∈ f.mandatory ++ f.optional, ∀ v, f.subject = .var v → v ∈ t.vars
  computed : ∀ t ∈ f.bindTemplate, ∀ v ∈ t.vars, f.subject = .var v ∨ v ∈ f.binds.map Prod.snd

variable {f f' : Fragment}

/-- Only the triples of a fragment have to be anchored. -/
theorem Anchored.of_eq (h : f.Anchored) (hsubject : f'.subject = f.subject)
    (hmandatory : f'.mandatory = f.mandatory) (hoptional : f'.optional = f.optional)
    (hbinds : f'.binds = f.binds) (htemplate : f'.bindTemplate = f.bindTemplate) :
    f'.Anchored where
  subject := by rw [hmandatory, hoptional, hsubject]; exact h.subject
  computed := by rw [htemplate, hsubject, hbinds]; exact h.computed

/-- One more triple that speaks of the subject. -/
theorem Anchored.of_triple (h : f.Anchored) {t : Triple}
    (ht : ∀ v, f.subject = .var v → v ∈ t.vars) (hsubject : f'.subject = f.subject)
    (htriples : ∀ t' ∈ f'.mandatory ++ f'.optional, t' ∈ f.mandatory ++ f.optional ∨ t' = t)
    (hbinds : f'.binds = f.binds) (htemplate : f'.bindTemplate = f.bindTemplate) :
    f'.Anchored where
  subject := by
    rw [hsubject]
    intro t' ht'
    rcases htriples t' ht' with hold | rfl
    · exact h.subject t' hold
    · exact ht
  computed := by rw [htemplate, hsubject, hbinds]; exact h.computed

end Fragment

namespace Draft

variable {ns : Namespaces} {config : Config} {options : CompileOptions} {e : Entity}
  {d d' : Draft}

/-- At the start there are no triples to anchor. -/
theorem anchored_opening (subject : Term) (a : Allocator) :
    (opening ns e subject a).fragment.Anchored := by
  have hstart : (start ns e subject a).fragment.Anchored := ⟨by simp [start], by simp [start]⟩
  unfold opening addIdentity
  split
  · exact hstart.of_eq rfl rfl rfl rfl rfl
  · exact hstart

/-- The type speaks of the subject. -/
theorem anchored_types (h : d.fragment.Anchored) (hstep : Types ns e d d') :
    d'.fragment.Anchored := by
  cases hstep with
  | untyped => exact h
  | @exact class_ =>
      refine h.of_triple (t := exactType d.fragment.subject class_) ?_ rfl ?_ rfl rfl
      · exact fun v hv => Sparql.Triple.mem_vars_of_iri.mpr (.inl hv)
      · intro t ht
        simp only [List.mem_append, List.mem_singleton] at ht ⊢
        tauto
  | @resolved type a _ htype =>
      refine h.of_triple (t := type.triple) ?_ rfl ?_ rfl rfl
      · intro v hv
        have htriple : type.triple = .ofType d.fragment.subject (.var type.typeVar) := by
          rw [← congrArg (·.1.triple) htype, ← congrArg (·.1.typeVar) htype]
          unfold MostSpecificType.compile
          cases e.class? ns <;> rfl
        rw [htriple]
        exact Sparql.Triple.mem_vars_of_iri.mpr (.inl hv)
      · intro t ht
        simp only [List.mem_append, List.mem_singleton] at ht ⊢
        tauto

/-- A selected key speaks of the subject. -/
theorem anchored_selects (h : d.fragment.Anchored) {key : String}
    (hstep : Selects ns options e key d d') : d'.fragment.Anchored := by
  cases hstep with
  | pinned | type | computed | unknown | unmapped => exact h
  | identity | borrowed | deferred => exact h.of_eq rfl rfl rfl rfl rfl
  | @property _ m =>
      refine h.of_triple (t := propertyTriple e key m d) ?_ rfl ?_ rfl rfl
      · exact fun v hv => Mapping.mem_vars_triple.mpr (.inl hv)
      · intro t ht
        rw [addProperty_mandatory, addProperty_optional] at ht
        split at ht <;> simp only [List.mem_append, List.mem_singleton] at ht ⊢ <;> tauto

/-- A condition speaks of the subject, and a computed key of what it computes. -/
theorem anchored_restricts (h : d.fragment.Anchored) {key : String} {c : Condition}
    (hstep : Restricts ns config e key d c d') : d'.fragment.Anchored := by
  cases hstep with
  | keyword | selected | unmapped => exact h
  | existence => exact h.of_eq rfl rfl rfl rfl rfl
  | @hidden m =>
      let x := (varFor e key (some c) d.alloc).1
      refine h.of_triple (t := m.triple d.fragment.subject (.var x)) ?_ rfl ?_ rfl rfl
      · exact fun v hv => Mapping.mem_vars_triple.mpr (.inl hv)
      · intro t ht
        simp only [addHidden, List.mem_append, List.mem_singleton] at ht ⊢
        tauto
  | computed =>
      rw [addComputed_fragment]
      refine ⟨h.subject, fun t ht v hv => ?_⟩
      dsimp only
      rw [List.map_append, List.mem_append]
      rcases List.mem_append.mp ht with ht | ht
      · exact (h.computed t ht v hv).imp_right .inl
      · obtain rfl := List.mem_singleton.mp ht
        exact (Sparql.Triple.mem_vars_of_iri.mp hv).imp_right fun hvar =>
          .inr (List.mem_singleton.mpr (Term.var.inj hvar).symm)

end Draft

/-- Every compiled fragment is anchored. -/
theorem Entity.compile_anchored {ns : Namespaces} {config : Config} {options : CompileOptions}
    {e : Entity} {a a' : Allocator} {f : Fragment}
    (h : e.compile ns config options a = .ok (f, a')) : f.Anchored := by
  obtain ⟨d, hd, rfl, -⟩ := compile_draft (fun d => d.fragment.Anchored)
    (fun subject b _ => Draft.anchored_opening subject b)
    (fun _ _ hd hstep => Draft.anchored_types hd hstep)
    (fun _ _ _ _ hd hstep => Draft.anchored_selects hd hstep)
    (fun _ _ _ _ hd hstep => Draft.anchored_restricts hd hstep) h
  exact hd.of_eq rfl rfl rfl rfl rfl

namespace Fragment

variable {f : Fragment} {v : Var}

/-- What may be missing binds the variables of its triples. -/
theorem mem_scope_optionalPatterns :
    v ∈ groupScope f.optionalPatterns ↔ ∃ t ∈ f.optional, v ∈ t.vars := by
  simp [mem_groupScope, optionalPatterns, Pattern.optionalTriple, Pattern.scope, groupScope]

/-- Filters bind nothing. -/
theorem not_mem_scope_filterPatterns : v ∉ groupScope f.filterPatterns := by
  simp [mem_groupScope, filterPatterns, Pattern.scope]

/-- Computed values bind the variables they are given to. -/
theorem mem_scope_bindPatterns : v ∈ groupScope f.bindPatterns ↔ v ∈ f.binds.map Prod.snd := by
  simp [mem_groupScope, bindPatterns, Pattern.scope, eq_comm]

/-- The patterns of a fragment bind the variables of its triples and the computed ones. -/
theorem mem_scope_patterns :
    v ∈ groupScope f.patterns ↔
      (∃ t ∈ f.mandatory ++ f.optional, v ∈ t.vars) ∨ v ∈ f.binds.map Prod.snd := by
  simp only [patterns, groupScope_append, List.mem_append, Sparql.mem_scope_block,
    mem_scope_optionalPatterns, not_mem_scope_filterPatterns, mem_scope_bindPatterns, or_false,
    or_and_right, exists_or]

/-- What a sub-select projects is what its patterns bind. -/
theorem mem_boundVars : v ∈ f.boundVars ↔ v ∈ groupScope f.patterns := by
  rw [mem_scope_patterns, boundVars, List.mem_eraseDups, List.mem_append, List.mem_flatMap]

/-- The patterns bind all variables of the template, if a triple asks for the subject. -/
theorem Anchored.mem_scope (h : f.Anchored) (hasks : f.mandatory ++ f.optional ≠ []) {t : Triple}
    (ht : t ∈ f.template) (hv : v ∈ t.vars) : v ∈ groupScope f.patterns := by
  rw [mem_scope_patterns]
  rcases List.mem_append.mp ht with ht | ht
  · exact .inl ⟨t, ht, hv⟩
  · refine (h.computed t ht v hv).imp_left fun hsubject => ?_
    obtain ⟨u, hu⟩ := List.exists_mem_of_ne_nil _ hasks
    exact ⟨u, hu, h.subject u hu v hsubject⟩

end Fragment

namespace Collection

variable {ns : Namespaces} {config : Config} {c : Collection} {v : Var}

/-- The services of a merged group bind what the patterns of their fragments bind. -/
theorem mem_scope_services {fragments : List Fragment} :
    v ∈ groupScope (fragments.filterMap servicePattern?) ↔
      ∃ f ∈ fragments, f.service.isSome ∧ v ∈ groupScope f.patterns := by
  rw [mem_groupScope]
  constructor
  · rintro ⟨p, hp, hv⟩
    obtain ⟨f, hf, hservice⟩ := List.mem_filterMap.mp hp
    obtain ⟨endpoint, hendpoint, rfl⟩ := Option.map_eq_some_iff.mp hservice
    exact ⟨f, hf, by rw [hendpoint]; rfl, by rwa [Pattern.scope] at hv⟩
  · rintro ⟨f, hf, hservice, hv⟩
    obtain ⟨endpoint, hendpoint⟩ := Option.isSome_iff_exists.mp hservice
    refine ⟨.service endpoint false f.patterns, ?_, by rwa [Pattern.scope]⟩
    exact List.mem_filterMap.mpr ⟨f, hf, by simp [servicePattern?, hendpoint]⟩

/-- A merged group binds what the patterns of its fragments bind. -/
theorem mem_scope_mergePatterns {fragments : List Fragment} :
    v ∈ groupScope (mergePatterns fragments) ↔ ∃ f ∈ fragments, v ∈ groupScope f.patterns := by
  simp only [mergePatterns, groupScope_append, groupScope_flatMap, List.mem_append,
    Sparql.mem_scope_block, mem_scope_services, List.mem_flatMap,
    Fragment.mem_scope_optionalPatterns, Fragment.not_mem_scope_filterPatterns,
    Fragment.mem_scope_bindPatterns, List.mem_filter, and_false, exists_false, or_false]
  constructor
  · rintro (((⟨t, ⟨f, ⟨hf, -⟩, ht⟩, hv⟩ | ⟨f, hf, -, hv⟩) | ⟨f, ⟨hf, -⟩, t, ht, hv⟩) |
      ⟨f, ⟨hf, -⟩, hv⟩)
    · exact ⟨f, hf, Fragment.mem_scope_patterns.mpr (.inl ⟨t, List.mem_append_left _ ht, hv⟩)⟩
    · exact ⟨f, hf, hv⟩
    · exact ⟨f, hf, Fragment.mem_scope_patterns.mpr (.inl ⟨t, List.mem_append_right _ ht, hv⟩)⟩
    · exact ⟨f, hf, Fragment.mem_scope_patterns.mpr (.inr hv)⟩
  · rintro ⟨f, hf, hv⟩
    by_cases hservice : f.service.isSome
    · exact .inl (.inl (.inr ⟨f, hf, hservice, hv⟩))
    · have hinPlace : f.service.isNone = true := by simpa using hservice
      rcases Fragment.mem_scope_patterns.mp hv with ⟨t, ht, hv⟩ | hv
      · rcases List.mem_append.mp ht with ht | ht
        · exact .inl (.inl (.inl ⟨t, ⟨f, ⟨hf, hinPlace⟩, ht⟩, hv⟩))
        · exact .inl (.inr ⟨f, ⟨hf, hinPlace⟩, t, ht, hv⟩)
      · exact .inr ⟨f, ⟨hf, hinPlace⟩, hv⟩

/-- A sub-select projects what its patterns bind. -/
theorem subselect?_cases {p : Part} {pattern : Pattern} (h : c.subselect? p = some pattern) :
    ∃ distinct modifiers, pattern =
      .subselect (.of distinct p.fragment.boundVars p.fragment.patterns modifiers) := by
  unfold subselect? at h
  split at h
  · cases h
  · obtain ⟨modifiers, -, rfl⟩ := Option.map_eq_some_iff.mp h
    exact ⟨_, modifiers, rfl⟩

/-- A sub-select shows all that the patterns of its entity bind. -/
theorem mem_scope_subselect {p : Part} {pattern : Pattern} (h : c.subselect? p = some pattern) :
    v ∈ pattern.scope ↔ v ∈ groupScope p.fragment.patterns := by
  obtain ⟨distinct, modifiers, rfl⟩ := subselect?_cases h
  rw [Pattern.scope]
  exact Sparql.mem_scope_of fun _ => Fragment.mem_boundVars.mpr

/-- The group of a CONSTRUCT binds what the patterns of its parts bind. -/
theorem mem_scope_body {plan : ConstructPlan} (h : c.compileConstruct ns config = .ok plan) :
    v ∈ groupScope plan.query.body ↔
      ∃ p ∈ plan.parts, v ∈ groupScope p.fragment.patterns := by
  obtain ⟨parts, -, rfl⟩ := compileConstruct_cases h
  dsimp only
  rw [groupScope_append, List.mem_append, mem_scope_mergePatterns, mem_groupScope]
  constructor
  · rintro (⟨pattern, hpattern, hv⟩ | ⟨f, hf, hv⟩)
    · obtain ⟨p, hp, hsubselect⟩ := List.mem_filterMap.mp hpattern
      exact ⟨p, hp, (mem_scope_subselect hsubselect).mp hv⟩
    · obtain ⟨p, hp, rfl⟩ := List.mem_map.mp hf
      exact ⟨p, List.mem_of_mem_filter hp, hv⟩
  · rintro ⟨p, hp, hv⟩
    cases hsubselect : c.subselect? p with
    | none =>
        have hflat : p ∈ parts.filter fun p => (c.subselect? p).isNone :=
          List.mem_filter.mpr ⟨hp, by rw [hsubselect]; rfl⟩
        exact .inr ⟨p.fragment, List.mem_map_of_mem hflat, hv⟩
    | some pattern =>
        exact .inl ⟨pattern, List.mem_filterMap.mpr ⟨p, hp, hsubselect⟩,
          (mem_scope_subselect hsubselect).mpr hv⟩

/-- **Templates stay in scope.**  Each entity has its template in a CONSTRUCT, and the WHERE
clause binds all variables of it if a triple asks for the subject.  A sub-select of the entity
shows them all: its solutions are those of the patterns alone, ordered and cut, and what the
template becomes under one of them it becomes under every solution of the WHERE clause that
takes that one up. -/
theorem template_inScope {plan : ConstructPlan} (h : c.compileConstruct ns config = .ok plan)
    {i : Nat} {e : Entity} (he : c.entities[i]? = some e) :
    ∃ p, plan.parts[i]? = some p ∧ p.entity = e ∧
      p.fragment.template ⊆ plan.query.template ∧
      (p.fragment.mandatory ++ p.fragment.optional ≠ [] →
        ∀ t ∈ p.fragment.template, ∀ v ∈ t.vars, v ∈ groupScope plan.query.body ∧
          ∀ q, c.subselect? p = some (.subselect q) → v ∈ q.scope) ∧
      ∀ pattern, c.subselect? p = some pattern → ∃ q, pattern = .subselect q ∧
        pattern ∈ plan.query.body ∧ ∀ E : Engine, E.CutsOnly → ∀ G,
          q.solutions E G = E.cut q.modifiers (groupSolutions E G p.fragment.patterns) ∧
          ∀ μ ∈ groupSolutions E G plan.query.body, ∃ ν ∈ q.solutions E G,
            ∀ t ∈ p.fragment.template, ∀ σ s, t.Denotes σ ν s → t.Denotes σ μ s := by
  have hparts := compileParts_of_construct h
  have hentities : plan.parts.map (·.entity) = c.entities := Entity.compileEach_entities hparts
  rw [← hentities, List.getElem?_map] at he
  obtain ⟨p, hp, rfl⟩ := Option.map_eq_some_iff.mp he
  have hmem : p ∈ plan.parts := List.mem_of_getElem? hp
  obtain ⟨a, a', hcompile⟩ := Entity.compileEach_part hparts p hmem
  have hanchored : p.fragment.Anchored := Entity.compile_anchored hcompile
  refine ⟨p, hp, rfl, ?_, ?_, ?_⟩
  · obtain ⟨parts, -, rfl⟩ := compileConstruct_cases h
    exact fun t ht => List.mem_flatMap.mpr ⟨p, hmem, ht⟩
  · intro hasks t ht v hv
    have hscope : v ∈ groupScope p.fragment.patterns := hanchored.mem_scope hasks ht hv
    refine ⟨(mem_scope_body h).mpr ⟨p, hmem, hscope⟩, fun q hq => ?_⟩
    have hshown := (mem_scope_subselect hq).mpr hscope
    rwa [Pattern.scope] at hshown
  · intro pattern hpattern
    obtain ⟨distinct, modifiers, rfl⟩ := subselect?_cases hpattern
    have hbody : Pattern.subselect
        (.of distinct p.fragment.boundVars p.fragment.patterns modifiers) ∈ plan.query.body := by
      obtain ⟨parts, -, rfl⟩ := compileConstruct_cases h
      exact List.mem_append_left _ (List.mem_filterMap.mpr ⟨p, hmem, hpattern⟩)
    refine ⟨_, rfl, hbody, fun E hE G => ⟨?_, fun μ hμ => ?_⟩⟩
    · exact Sparql.solutions_of hE (fun _ => Fragment.mem_boundVars.mpr) distinct modifiers G
    · obtain ⟨ν, hν, hextends⟩ := Sparql.extends_of_subselect hbody hμ.1
      exact ⟨ν, hν, fun t _ σ s => Sparql.Triple.Denotes.of_extends hextends⟩

/-- Ten things with a code, each with its maker and whether it is still made, and a place. -/
def shortlist : Collection where
  entities :=
    [{ index := 0
       schema :=
         { targetClass := some "ex:Thing"
           context := [("code", .str "ex:code"), ("maker", .obj [("@reverse", .str "ex:made")])]
           properties :=
             [("code", { type := some "string" }), ("maker", { format := some "iri" })] }
       selection := some ["@id", "maker"]
       conditions :=
         [("code", .value (.str "x")),
           ("made", .computed .exist [⟨"?maker", "ex:makes", "?eIri0"⟩])]
       limit := some 10 },
     { index := 1, schema := { targetClass := some "ex:Place" } }]

/-- The variable of the computed key is seen outside of the sub-select. -/
theorem template_inScope_shortlist :
    ∃ plan p q, shortlist.compileConstruct .exampleOrg {} = .ok plan ∧
      plan.parts[0]? = some p ∧ shortlist.subselect? p = some (.subselect q) ∧
      ⟨.var ⟨"eIri0"⟩, .iri "urn:local:made", .var ⟨"made0"⟩⟩ ∈ p.fragment.template ∧
      ⟨"made0"⟩ ∈ q.scope ∧ ⟨"made0"⟩ ∈ groupScope plan.query.body := by
  obtain ⟨plan, p, q, hplan, hp, hq, hasks, hmade⟩ :
      ∃ plan p q, shortlist.compileConstruct .exampleOrg {} = .ok plan ∧
        plan.parts[0]? = some p ∧ shortlist.subselect? p = some (.subselect q) ∧
        p.fragment.mandatory ++ p.fragment.optional ≠ [] ∧
        ⟨.var ⟨"eIri0"⟩, .iri "urn:local:made", .var ⟨"made0"⟩⟩ ∈ p.fragment.template :=
    ⟨_, _, _, rfl, rfl, rfl, by decide +kernel, by decide +kernel⟩
  refine ⟨plan, p, q, hplan, hp, hq, hmade, ?_⟩
  obtain ⟨p', hp', -, -, hscope, -⟩ := template_inScope hplan (i := 0) rfl
  obtain rfl : p = p' := Option.some.inj (hp.symm.trans hp')
  obtain ⟨hbody, hshown⟩ := hscope hasks _ hmade ⟨"made0"⟩
    (Sparql.Triple.mem_vars_of_iri.mpr (.inr rfl))
  exact ⟨hshown q hq, hbody⟩

end Collection

end ObjectGraph
