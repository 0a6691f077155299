import Mathlib.Data.List.Forall2
import ObjectGraph.Compile.Update
import ObjectGraph.Proofs.Variable.Allocation

/-!
# Subjects, and walks over the entities of a collection

The subject of an entity is fixed to an IRI (`Entity.pin?`) or a variable, which
is shared or joined; nothing but the choice of that variable depends on the names
in use (`subjectTerm_cases`).  Fragments and operations are made entity by entity
over one allocator, so what every entity keeps of the allocator holds wherever a
compilation starts (`compileEach_at`, `operations_at`).
-/

namespace ObjectGraph

open Sparql (Var Term Operation)

namespace Entity

/-- The IRI that the subject of an entity is fixed to: that of a condition on the
identity, or else the identity of the data. -/
def pin? (ns : Namespaces) (e : Entity) : Option String :=
  match e.condition? "@id" with
  | some (.shared _) => none
  | some (.value v) => (referenceIri? v).map ns.expand
  | _ => (e.dataText? "@id").map ns.expand

/-- The user's name for the identity of an entity. -/
def identityName? (e : Entity) : Option String :=
  (e.condition? "@id").bind Condition.sharedName?

/-- A condition that is found is one of the conditions of the entity. -/
theorem mem_of_condition? {e : Entity} {key : String} {condition : Condition}
    (h : e.condition? key = some condition) : (key, condition) ∈ e.conditions :=
  Assoc.mem_of_get? h

/-- Without a condition that fixes or shares the identity, the data decides. -/
theorem subjectTerm_of_data (ns : Namespaces) {e : Entity}
    (hshared : ∀ name, e.condition? "@id" ≠ some (.shared name))
    (hvalue : ∀ v, e.condition? "@id" ≠ some (.value v)) (a : Allocator) :
    e.pin? ns = (e.dataText? "@id").map ns.expand ∧ e.identityName? = none ∧
      e.subjectTerm ns a =
        match e.dataText? "@id" with
        | some iri => .ok (.iri (ns.expand iri), a)
        | none =>
          .ok (.var (a.join ("eIri" ++ toString e.index)).1,
            (a.join ("eIri" ++ toString e.index)).2) := by
  unfold pin? identityName? subjectTerm
  cases hc : e.condition? "@id" with
  | none => cases e.dataText? "@id" <;> exact ⟨rfl, rfl, rfl⟩
  | some c =>
      cases c with
      | value v => exact (hvalue v hc).elim
      | shared name => exact (hshared name hc).elim
      | related | computed => cases e.dataText? "@id" <;> exact ⟨rfl, rfl, rfl⟩

/-- A subject is the fixed IRI, the variable the user named, or a joined one. -/
theorem subjectTerm_cases {ns : Namespaces} {e : Entity} {a a' : Allocator} {s : Term}
    (h : e.subjectTerm ns a = .ok (s, a')) :
    (∃ iri, e.pin? ns = some iri ∧ s = .iri iri ∧ a' = a) ∨
      (e.pin? ns = none ∧ ∃ name, e.condition? "@id" = some (.shared name) ∧
        s = .var (a.share name).1 ∧ a' = (a.share name).2) ∨
      (e.pin? ns = none ∧ e.identityName? = none ∧
        s = .var (a.join ("eIri" ++ toString e.index)).1 ∧
        a' = (a.join ("eIri" ++ toString e.index)).2) := by
  by_cases hshared : ∃ name, e.condition? "@id" = some (.shared name)
  · obtain ⟨name, hc⟩ := hshared
    rw [show e.subjectTerm ns a = .ok (.var (a.share name).1, (a.share name).2) by
      simp [subjectTerm, hc]] at h
    cases h
    exact .inr (.inl ⟨by simp [pin?, hc], name, hc, rfl, rfl⟩)
  by_cases hvalue : ∃ v, e.condition? "@id" = some (.value v)
  · obtain ⟨v, hc⟩ := hvalue
    cases hv : referenceIri? v with
    | none => simp [subjectTerm, hc, hv] at h
    | some iri =>
        simp only [subjectTerm, hc, hv, Except.ok.injEq, Prod.mk.injEq] at h
        exact .inl ⟨ns.expand iri, by simp [pin?, hc, hv], h.1.symm, h.2.symm⟩
  obtain ⟨hpin, hname, hterm⟩ := subjectTerm_of_data ns
    (fun name hc => hshared ⟨name, hc⟩) (fun v hc => hvalue ⟨v, hc⟩) a
  rw [hterm] at h
  rw [hpin]
  cases hd : e.dataText? "@id" with
  | some iri =>
      rw [hd] at h
      cases h
      exact .inl ⟨ns.expand iri, rfl, rfl, rfl⟩
  | none =>
      rw [hd] at h
      cases h
      exact .inr (.inr ⟨rfl, hname, rfl, rfl⟩)

/-- A fixed subject is there whatever names are in use. -/
theorem subjectTerm_of_pin {ns : Namespaces} {e : Entity} {iri : String}
    (h : e.pin? ns = some iri) (a : Allocator) :
    e.subjectTerm ns a = .ok (.iri iri, a) := by
  by_cases hvalue : ∃ v, e.condition? "@id" = some (.value v)
  · obtain ⟨v, hc⟩ := hvalue
    simp only [pin?, hc] at h
    obtain ⟨i, hi, rfl⟩ := Option.map_eq_some_iff.mp h
    simp [subjectTerm, hc, hi]
  have hshared : ∀ name, e.condition? "@id" ≠ some (.shared name) := by
    intro name hc
    simp [pin?, hc] at h
  obtain ⟨hpin, _, hterm⟩ := subjectTerm_of_data ns hshared
    (fun v hc => hvalue ⟨v, hc⟩) a
  obtain ⟨i, hi, rfl⟩ := Option.map_eq_some_iff.mp (hpin ▸ h)
  rw [hterm, hi]

/-- The fragments of a collection are the one of its first entity and, from the names it
leaves, those of the others. -/
theorem compileEach_cons {ns : Namespaces} {config : Config} {options : CompileOptions}
    {e : Entity} {rest : List Entity} {a : Allocator} {parts : List Part}
    (h : compileEach ns config options (e :: rest) a = .ok parts) :
    ∃ f b others, e.compile ns config options a = .ok (f, b) ∧
      compileEach ns config options rest b = .ok others ∧ parts = ⟨e, f⟩ :: others := by
  unfold compileEach at h
  cases hc : e.compile ns config options a with
  | error x => simp [hc, bind, Except.bind] at h
  | ok made =>
      obtain ⟨f, b⟩ := made
      cases hr : compileEach ns config options rest b with
      | error x => simp [hc, hr, bind, Except.bind] at h
      | ok others =>
          simp only [hc, hr, bind, Except.bind, Except.ok.injEq] at h
          exact ⟨f, b, others, rfl, hr, h.symm⟩

/-- The parts of a collection are its entities with their fragments, one by one. -/
theorem compileEach_entities {ns : Namespaces} {config : Config}
    {options : CompileOptions} {entities : List Entity} {a : Allocator} {parts : List Part}
    (h : compileEach ns config options entities a = .ok parts) :
    parts.map (·.entity) = entities := by
  induction entities generalizing a parts with
  | nil =>
      cases h
      rfl
  | cons e rest ih =>
      obtain ⟨f, b, others, -, hrest, rfl⟩ := compileEach_cons h
      rw [List.map_cons, ih hrest]

/-- The fragment of the entity at a place is compiled from a state that all
entities before it keep. -/
theorem compileEach_at {ns : Namespaces} {config : Config} {options : CompileOptions}
    (keeps : Allocator → Prop) {entities : List Entity}
    (hkeeps : ∀ e ∈ entities, ∀ a f a', keeps a → e.compile ns config options a = .ok (f, a') →
      keeps a')
    {a : Allocator} {parts : List Part} (ha : keeps a)
    (h : compileEach ns config options entities a = .ok parts) {i : Nat} {p : Part}
    (hp : parts[i]? = some p) :
    entities[i]? = some p.entity ∧ ∃ b b', keeps b ∧
      p.entity.compile ns config options b = .ok (p.fragment, b') := by
  induction entities generalizing a parts i with
  | nil =>
      cases h
      simp at hp
  | cons e rest ih =>
      obtain ⟨f, b, others, hc, hr, rfl⟩ := compileEach_cons h
      cases i with
      | zero =>
          obtain rfl := Option.some.inj hp
          exact ⟨rfl, a, b, ha, hc⟩
      | succ i =>
          exact ih (fun d hd => hkeeps d (List.mem_cons_of_mem _ hd))
            (hkeeps e List.mem_cons_self a f b ha hc) hr hp

/-- The operations of a request are that of its first entity and, from the names it leaves,
those of the others. -/
theorem operations_cons
    {compile : Entity → Allocator → Except MapperError (Operation × Allocator)}
    {e : Entity} {rest : List Entity} {a : Allocator} {ops : Sparql.Update}
    (h : operations compile (e :: rest) a = .ok ops) :
    ∃ op b others, compile e a = .ok (op, b) ∧ operations compile rest b = .ok others ∧
      ops = op :: others := by
  unfold operations at h
  cases hc : compile e a with
  | error x => simp [hc, bind, Except.bind] at h
  | ok made =>
      obtain ⟨op, b⟩ := made
      cases hr : operations compile rest b with
      | error x => simp [hc, hr, bind, Except.bind] at h
      | ok others =>
          simp only [hc, hr, bind, Except.bind, Except.ok.injEq] at h
          exact ⟨op, b, others, rfl, hr, h.symm⟩

/-- The operation of the entity at a place is compiled from a state that knows
which entities came before it. -/
theorem operations_at
    {compile : Entity → Allocator → Except MapperError (Operation × Allocator)}
    (keeps : List Entity → Allocator → Prop)
    (hkeeps : ∀ before (e : Entity) a op a', keeps before a → compile e a = .ok (op, a') →
      keeps (before ++ [e]) a')
    {entities before : List Entity} {a : Allocator} {ops : Sparql.Update}
    (ha : keeps before a) (h : operations compile entities a = .ok ops) {i : Nat} {e : Entity}
    (he : entities[i]? = some e) :
    ∃ b op b', keeps (before ++ entities.take i) b ∧ compile e b = .ok (op, b') ∧
      ops[i]? = some op := by
  induction entities generalizing before a ops i with
  | nil => simp at he
  | cons d rest ih =>
      obtain ⟨op, b, others, hc, hr, rfl⟩ := operations_cons h
      cases i with
      | zero =>
          obtain rfl := Option.some.inj he
          exact ⟨a, op, b, by simpa using ha, hc, rfl⟩
      | succ i =>
          obtain ⟨b₁, op₁, b₂, hb, hop, hat⟩ := ih (hkeeps before d a op b ha hc) hr he
          exact ⟨b₁, op₁, b₂, by simpa using hb, hop, hat⟩

/-- Every operation of a request is that of an entity, from some names in use. -/
theorem operations_mem
    {compile : Entity → Allocator → Except MapperError (Operation × Allocator)}
    {entities : List Entity} {a : Allocator} {ops : Sparql.Update}
    (h : operations compile entities a = .ok ops) :
    ∀ op ∈ ops, ∃ e ∈ entities, ∃ b b', compile e b = .ok (op, b') := by
  induction entities generalizing a ops with
  | nil =>
      cases h
      nofun
  | cons e rest ih =>
      obtain ⟨op, b, others, hc, hr, rfl⟩ := operations_cons h
      refine List.forall_mem_cons.mpr ⟨⟨e, List.mem_cons_self, a, b, hc⟩, fun op' hop' => ?_⟩
      obtain ⟨d, hd, hop'⟩ := ih hr op' hop'
      exact ⟨d, List.mem_cons_of_mem _ hd, hop'⟩

/-- The operations of a request are those of the entities, one by one. -/
theorem operations_forall₂
    {compile : Entity → Allocator → Except MapperError (Operation × Allocator)}
    {R : Entity → Operation → Prop} (hR : ∀ e a op b, compile e a = .ok (op, b) → R e op)
    {entities : List Entity} {a : Allocator} {ops : Sparql.Update}
    (h : operations compile entities a = .ok ops) : List.Forall₂ R entities ops := by
  induction entities generalizing a ops with
  | nil =>
      cases h
      exact .nil
  | cons e rest ih =>
      obtain ⟨op, b, others, hc, hr, rfl⟩ := operations_cons h
      exact .cons (hR e a op b hc) (ih hr)

/-- Whether there is a subject does not depend on the names in use. -/
theorem subjectTerm_total {ns : Namespaces} {e : Entity} {a : Allocator}
    {made : Term × Allocator} (h : e.subjectTerm ns a = .ok made) (b : Allocator) :
    ∃ made', e.subjectTerm ns b = .ok made' := by
  rcases subjectTerm_cases h with ⟨iri, hpin, _⟩ | ⟨_, name, hc, _⟩ | ⟨hpin, hname, _⟩
  · exact ⟨_, subjectTerm_of_pin hpin b⟩
  · exact ⟨_, by simp [subjectTerm, hc]; rfl⟩
  · unfold subjectTerm at h ⊢
    cases hc : e.condition? "@id" with
    | none => exact ⟨_, rfl⟩
    | some c =>
        rw [hc] at h
        cases c with
        | shared | related | computed => exact ⟨_, rfl⟩
        | value v =>
            dsimp only at h ⊢
            cases hv : referenceIri? v with
            | none => simp [hv] at h
            | some iri => exact ⟨_, rfl⟩

/-- A fragment has a subject. -/
theorem subjectTerm_of_compile {ns : Namespaces} {config : Config} {options : CompileOptions}
    {e : Entity} {a : Allocator} {made : Fragment × Allocator}
    (h : e.compile ns config options a = .ok made) :
    ∃ made', e.subjectTerm ns a = .ok made' := by
  cases hs : e.subjectTerm ns a with
  | error x => simp [compile, hs, bind, Except.bind] at h
  | ok made' => exact ⟨made', rfl⟩

/-- A collection has its fragments only if every entity has its own. -/
theorem compileEach_mem {ns : Namespaces} {config : Config} {options : CompileOptions}
    {entities : List Entity} {a : Allocator} {parts : List Part}
    (h : compileEach ns config options entities a = .ok parts) :
    ∀ e ∈ entities, ∃ b made, e.compile ns config options b = .ok made := by
  induction entities generalizing a parts with
  | nil => simp
  | cons e rest ih =>
      obtain ⟨f, b, others, hc, hr, rfl⟩ := compileEach_cons h
      intro d hd
      rcases List.mem_cons.mp hd with rfl | hd
      · exact ⟨a, _, hc⟩
      · exact ih hr d hd

/-- Every part of a collection is an entity with the fragment it was compiled to. -/
theorem compileEach_part {ns : Namespaces} {config : Config} {options : CompileOptions}
    {entities : List Entity} {a : Allocator} {parts : List Part}
    (h : compileEach ns config options entities a = .ok parts) :
    ∀ p ∈ parts, ∃ b b', p.entity.compile ns config options b = .ok (p.fragment, b') := by
  intro p hp
  obtain ⟨i, hi⟩ := List.mem_iff_getElem?.mp hp
  obtain ⟨-, b, b', -, hc⟩ :=
    compileEach_at (fun _ => True) (fun _ _ _ _ _ _ _ => trivial) trivial h hi
  exact ⟨b, b', hc⟩

/-- There is a request if every entity has an operation whatever names are in use. -/
theorem operations_total
    {compile : Entity → Allocator → Except MapperError (Operation × Allocator)}
    {entities : List Entity} (h : ∀ e ∈ entities, ∀ a, ∃ made, compile e a = .ok made)
    (a : Allocator) : ∃ ops, operations compile entities a = .ok ops := by
  induction entities generalizing a with
  | nil => exact ⟨[], rfl⟩
  | cons e rest ih =>
      obtain ⟨⟨op, b⟩, hc⟩ := h e List.mem_cons_self a
      obtain ⟨ops, hr⟩ := ih (fun d hd => h d (List.mem_cons_of_mem _ hd)) b
      exact ⟨op :: ops, by simp [operations, hc, hr, bind, Except.bind]⟩

end Entity

end ObjectGraph
