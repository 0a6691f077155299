import ObjectGraph.Proofs.Compile.Draft

/-!
# The predicates of a template

The triples that stand for an entity in a graph have the predicate of types, that of
a key, or the IRI of a computed key; nothing else is written, so a reader who knows
these predicates reads every triple (`template_predicate`).
-/

namespace ObjectGraph

open Sparql (Var Term Predicate Triple)

/-- The predicates that stand for the data of an entity in a graph. -/
inductive Entity.Writes (ns : Namespaces) (config : Config) (e : Entity) : Predicate → Prop
  | type : Writes ns config e (.iri Vocabulary.rdfType)
  | key {key : String} {m : Mapping} (hmapping : e.mapping? ns key = some m) :
      Writes ns config e (.iri m.iri)
  | computed {key : String} {relation : BindRelation} {triples : List BindTriple}
      (hcondition : (key, .computed relation triples) ∈ e.conditions) :
      Writes ns config e (.iri (config.localIri key))

/-- The triple of a key has the predicate of the key, whatever its direction. -/
theorem Mapping.triple_predicate (m : Mapping) (subject object : Term) :
    (m.triple subject object).predicate = .iri m.iri := by
  unfold triple
  cases m.reverse <;> rfl

/-- The triple of a resolved type has the predicate for types. -/
theorem MostSpecificType.compile_predicate (subject : Term) (class_ : Option String)
    (index : Nat) (a : Allocator) :
    (compile subject class_ index a).1.triple.predicate = .iri Vocabulary.rdfType := by
  cases class_ <;> rfl

namespace Draft

variable {ns : Namespaces} {config : Config} {options : CompileOptions} {e : Entity}
  {d d' : Draft}

/-- Every triple of the template has a predicate that the entity writes. -/
structure Writing (ns : Namespaces) (config : Config) (e : Entity) (d : Draft) : Prop where
  mandatory : ∀ t ∈ d.fragment.mandatory, e.Writes ns config t.predicate
  optional : ∀ t ∈ d.fragment.optional, e.Writes ns config t.predicate
  computed : ∀ t ∈ d.fragment.bindTemplate, e.Writes ns config t.predicate

/-- One more triple with such a predicate makes no difference. -/
theorem writes_concat {ts : List Triple} {t' : Triple}
    (h : ∀ t ∈ ts, e.Writes ns config t.predicate) (ht' : e.Writes ns config t'.predicate) :
    ∀ t ∈ ts ++ [t'], e.Writes ns config t.predicate := by
  intro t ht
  rcases List.mem_append.mp ht with ht | ht
  · exact h t ht
  · rw [List.mem_singleton.mp ht]
    exact ht'

/-- An entity starts out with an empty template. -/
theorem writing_opening (subject : Term) (a : Allocator) :
    Writing ns config e (opening ns e subject a) := by
  unfold opening addIdentity
  split <;> exact ⟨List.forall_mem_nil _, List.forall_mem_nil _, List.forall_mem_nil _⟩

theorem Writing.types (h : Writing ns config e d) (hstep : Types ns e d d') :
    Writing ns config e d' := by
  cases hstep with
  | untyped => exact h
  | exact => exact ⟨writes_concat h.mandatory .type, h.optional, h.computed⟩
  | resolved _ htype =>
      refine ⟨writes_concat h.mandatory ?_, h.optional, h.computed⟩
      have hpredicate :=
        MostSpecificType.compile_predicate d.fragment.subject (e.class? ns) e.index d.alloc
      rw [htype] at hpredicate
      rw [hpredicate]
      exact .type

/-- A selected key writes its predicate. -/
theorem Writing.selects (h : Writing ns config e d) {key : String}
    (hstep : Selects ns options e key d d') : Writing ns config e d' := by
  cases hstep with
  | pinned | type | computed | unknown | unmapped => exact h
  | identity | borrowed | deferred => exact ⟨h.mandatory, h.optional, h.computed⟩
  | @property _ m hkey _ _ _ hmapping =>
      have hnew : e.Writes ns config (propertyTriple e key m d).predicate := by
        unfold propertyTriple
        rw [Mapping.triple_predicate]
        exact .key hmapping
      refine ⟨?_, ?_, h.computed⟩
      · rw [addProperty_mandatory]
        split
        · exact writes_concat h.mandatory hnew
        · exact h.mandatory
      · rw [addProperty_optional]
        split
        · exact h.optional
        · exact writes_concat h.optional hnew

/-- A computed key writes the local IRI of its name, and a condition that narrows the predicate of
its key. -/
theorem Writing.restricts (h : Writing ns config e d) {entry : String × Condition}
    (hentry : entry ∈ e.conditions)
    (hstep : Restricts ns config e entry.1 d entry.2 d') : Writing ns config e d' := by
  obtain ⟨key, c⟩ := entry
  cases hstep with
  | keyword | selected | unmapped => exact h
  | computed => exact ⟨h.mandatory, h.optional, writes_concat h.computed (.computed hentry)⟩
  | existence => exact ⟨h.mandatory, h.optional, h.computed⟩
  | @hidden m _ hkey hmapping =>
      refine ⟨writes_concat h.mandatory ?_, h.optional, h.computed⟩
      rw [Mapping.triple_predicate]
      exact .key hmapping

end Draft

/-- Every triple of the template of a fragment has a predicate that its entity
writes. -/
theorem Entity.template_predicate {ns : Namespaces} {config : Config} {options : CompileOptions}
    {e : Entity} {a a' : Allocator} {f : Fragment}
    (h : e.compile ns config options a = .ok (f, a')) :
    ∀ t ∈ f.template, e.Writes ns config t.predicate := by
  obtain ⟨d, hd, rfl, _⟩ := compile_draft (Draft.Writing ns config e)
    (fun subject b _ => Draft.writing_opening subject b)
    (fun _ _ hd hstep => hd.types hstep)
    (fun _ _ _ _ hd hstep => hd.selects hstep)
    (fun _ hentry _ _ hd hstep => hd.restricts hentry hstep) h
  intro t ht
  rcases List.mem_append.mp ht with ht | ht
  · rcases List.mem_append.mp ht with ht | ht
    · exact hd.mandatory t ht
    · exact hd.optional t ht
  · exact hd.computed t ht

end ObjectGraph
