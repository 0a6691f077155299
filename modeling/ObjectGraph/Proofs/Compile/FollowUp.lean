import ObjectGraph.Compile.FollowUp
import ObjectGraph.Proofs.Compile.Draft

/-!
# What a follow-up query asks

A follow-up is compiled for a resource and a key of it.  It compiles whatever these
are, and its subject is the IRI of the resource, expanded once by the namespace map
(`FollowUp.compile_spec`).
-/

namespace ObjectGraph

open Sparql (Term)

namespace Entity

/-- The subject of a fragment is the one that its entity has. -/
theorem compile_subject {ns : Namespaces} {config : Config} {options : CompileOptions}
    {e : Entity} {a a' : Allocator} {f : Fragment}
    (h : e.compile ns config options a = .ok (f, a')) :
    ∃ b, e.subjectTerm ns a = .ok (f.subject, b) := by
  let holds : Draft → Prop := fun d => ∃ b, e.subjectTerm ns a = .ok (d.fragment.subject, b)
  have hopen : ∀ subject b, e.subjectTerm ns a = .ok (subject, b) →
      holds (Draft.opening ns e subject b) := by
    intro subject b hs
    refine ⟨b, ?_⟩
    rw [hs]
    unfold Draft.opening Draft.addIdentity
    split <;> rfl
  obtain ⟨d, hd, rfl, -⟩ := compile_draft holds hopen
    (fun d d' hd hstep => by cases hstep <;> exact hd)
    (fun key _ d d' hd hstep => by cases hstep <;> exact hd)
    (fun (_, _) _ d d' hd hstep => by cases hstep <;> exact hd) h
  exact hd

/-- An entity has a fragment if it has a subject. -/
theorem compile_total {ns : Namespaces} {e : Entity} {a : Allocator} {made : Term × Allocator}
    (h : e.subjectTerm ns a = .ok made) (config : Config) (options : CompileOptions) :
    ∃ made', e.compile ns config options a = .ok made' := by
  simp [compile, h, bind, Except.bind]

end Entity

/-- A SELECT is there if its fragments are, and is read by them. -/
theorem Collection.compileSelectWith_of_parts {ns : Namespaces} {config : Config}
    {options : CompileOptions} {c : Collection} {parts : List Part}
    (h : c.compileParts ns config options = .ok parts) :
    ∃ plan, c.compileSelectWith ns config options = .ok plan ∧ plan.parts = parts := by
  unfold compileSelectWith
  rw [h]
  exact ⟨_, rfl, rfl⟩

namespace FollowUp

/-- The entity of a follow-up. -/
def entityFor (parent : Entity) (key id : String) : Entity where
  index := 0
  schema := schema parent.schema key
  conditions := [("@id", .value (.str id))]
  selection := some [key]
  service := parent.service

theorem collectionFor_entities (parent : Entity) (key id : String) :
    (collectionFor parent key id).entities = [entityFor parent key id] := rfl

/-- A follow-up pins the resource that it is about. -/
theorem pin?_entityFor (ns : Namespaces) (parent : Entity) (key id : String) :
    (entityFor parent key id).pin? ns = some (ns.expand id) := rfl

/-- A follow-up has one fragment. -/
theorem compile_of_entityFor {ns : Namespaces} {config : Config} {parent : Entity}
    {key id : String} {f : Fragment} {a : Allocator}
    (h : (entityFor parent key id).compile ns config { deferArrays := false }
      (Entity.shareAll [entityFor parent key id] .empty) = .ok (f, a)) :
    ∃ plan, (collectionFor parent key id).compileSelectWith ns config { deferArrays := false } =
        .ok plan ∧
      FollowUp.compile ns config parent key id = .ok ⟨collectionFor parent key id, plan⟩ ∧
      plan.parts = [⟨entityFor parent key id, f⟩] := by
  have hparts : (collectionFor parent key id).compileParts ns config { deferArrays := false } =
      .ok [⟨entityFor parent key id, f⟩] := by
    simp [Collection.compileParts, collectionFor_entities, Entity.compileEach, h, bind,
      Except.bind]
  obtain ⟨plan, hplan, hread⟩ := Collection.compileSelectWith_of_parts hparts
  exact ⟨plan, hplan, by simp [FollowUp.compile, hplan, bind, Except.bind], hread⟩

/-- A follow-up compiles for every resource and key, with one fragment, whose subject
is the IRI of the resource expanded once. -/
theorem compile_spec (ns : Namespaces) (config : Config) (parent : Entity) (key id : String) :
    ∃ f part, FollowUp.compile ns config parent key id = .ok f ∧ f.plan.parts = [part] ∧
      part.fragment.subject = .iri (ns.expand id) := by
  have hpin := pin?_entityFor ns parent key id
  obtain ⟨⟨f, a'⟩, hcompile⟩ := Entity.compile_total
    (Entity.subjectTerm_of_pin hpin (Entity.shareAll [entityFor parent key id] .empty)) config
    { deferArrays := false }
  obtain ⟨b, hsubject⟩ := Entity.compile_subject hcompile
  rw [Entity.subjectTerm_of_pin hpin] at hsubject
  simp only [Except.ok.injEq, Prod.mk.injEq] at hsubject
  obtain ⟨plan, -, hfollow, hread⟩ := compile_of_entityFor hcompile
  exact ⟨_, _, hfollow, hread, hsubject.1.symm⟩

end FollowUp

end ObjectGraph
