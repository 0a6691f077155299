import ObjectGraph.Proofs.Compile.Tables
import ObjectGraph.Proofs.Compile.TwoRuns

/-!
# Entities do not interfere

The entities of a collection are compiled over one allocator, so an entity sees the names
that those before it use.  As long as no condition writes a name, this is all that it sees,
and two runs of one entity from different allocators differ in the names of their variables
only.  So the fragment of an entity is, up to a renaming of the variables, that of the entity
alone, whatever the other entities are (`compileParts_isolated`).
-/

namespace ObjectGraph

open Sparql (Renaming)

namespace Entity

variable {ns : Namespaces} {config : Config} {options : CompileOptions} {e : Entity}
  {a b a' : Allocator}

/-- An entity that writes no names is compiled to the same fragment up to a renaming. -/
theorem compile_alike (hnames : e.writtenNames = []) (ha : a.shared = []) (hb : b.shared = [])
    {f f' : Fragment} {b' : Allocator} (h : e.compile ns config options a = .ok (f, a'))
    (h' : e.compile ns config options b = .ok (f', b')) :
    a'.shared = [] ∧ ∃ ρ : Renaming, f' = f.rename ρ := by
  have hnone : ∀ n : String, ¬ False := fun _ => id
  have hwithin : ∀ entry ∈ e.conditions, entry.2.Within fun _ => False := by
    intro entry hentry name hname
    rw [List.flatMap_eq_nil_iff.mp hnames entry hentry] at hname
    cases hname
  obtain ⟨hshared, ρ, -, hρ⟩ := compile_renamed (.inl hnone) hwithin (by simp [ha])
    (by simp [hb]) (undisturbed_of_none hnone e a) (undisturbed_of_none hnone e b) h h'
  exact ⟨List.eq_nil_iff_forall_not_mem.mpr hshared, ρ, hρ⟩

end Entity

namespace Collection

variable {ns : Namespaces} {config : Config} {options : CompileOptions} {c : Collection}
  {parts : List Part}

/-- A collection without references and computed keys writes no names. -/
theorem writtenNames_eq_nil (h : ∀ e ∈ c.entities, ∀ entry ∈ e.conditions,
    entry.2.sharedName? = none ∧ entry.2.isComputed = false) : c.writtenNames = [] := by
  refine List.flatMap_eq_nil_iff.mpr fun e he => List.flatMap_eq_nil_iff.mpr ?_
  rintro ⟨key, condition⟩ hentry
  obtain ⟨hshared, hcomputed⟩ := h e he _ hentry
  cases condition with
  | value | related => rfl
  | shared => cases hshared
  | computed => cases hcomputed

/-- The fragment of an entity in a collection that writes no names is made from names of
which none is shared. -/
theorem compileParts_unshared (hnames : c.writtenNames = [])
    (h : c.compileParts ns config options = .ok parts) {i : Nat} {p : Part}
    (hp : parts[i]? = some p) :
    c.entities[i]? = some p.entity ∧ p.entity.writtenNames = [] ∧
      ∃ a a', a.shared = [] ∧ p.entity.compile ns config options a = .ok (p.fragment, a') := by
  have hentities : ∀ e ∈ c.entities, e.writtenNames = [] := List.flatMap_eq_nil_iff.mp hnames
  have hstart : (Entity.shareAll c.entities .empty).shared = [] := by
    rw [Entity.shareAll_eq, show c.entities.flatMap Entity.writtenNames = [] from hnames]
    rfl
  obtain ⟨hentity, a, a', ha, hcompile⟩ := Entity.compileEach_at (·.shared = [])
    (fun e he a f a' ha hcompile =>
      (Entity.compile_alike (hentities e he) ha ha hcompile hcompile).1)
    hstart h hp
  exact ⟨hentity, hentities _ (List.mem_of_getElem? hentity), a, a', ha, hcompile⟩

/-- **Entities do not interfere.**  In a collection that writes no names, the fragment of
an entity is that of the entity alone up to a renaming of the variables, and so it is in
any other such collection that the entity is part of, wherever it stands there. -/
theorem compileParts_isolated (hnames : c.writtenNames = [])
    (h : c.compileParts ns config options = .ok parts) {i : Nat} {p : Part}
    (hp : parts[i]? = some p) :
    c.entities[i]? = some p.entity ∧
      (∃ alone a, p.entity.compile ns config options .empty = .ok (alone, a) ∧
        ∃ ρ : Renaming, p.fragment = alone.rename ρ) ∧
      ∀ (c' : Collection) (parts' : List Part) (j : Nat) (q : Part), c'.writtenNames = [] →
        c'.compileParts ns config options = .ok parts' → parts'[j]? = some q →
        q.entity = p.entity → ∃ ρ : Renaming, q.fragment = p.fragment.rename ρ := by
  obtain ⟨hentity, hnames, a, a', ha, hcompile⟩ := compileParts_unshared hnames h hp
  obtain ⟨_, hs⟩ := Entity.subjectTerm_of_compile hcompile
  obtain ⟨_, hs'⟩ := Entity.subjectTerm_total hs .empty
  obtain ⟨⟨alone, b⟩, halone⟩ := Entity.compile_total hs' config options
  refine ⟨hentity, ⟨alone, b, halone, (Entity.compile_alike hnames rfl ha halone hcompile).2⟩, ?_⟩
  intro c' parts' j q hnames' h' hq heq
  obtain ⟨-, -, b, b', hb, hcompile'⟩ := compileParts_unshared hnames' h' hq
  exact (Entity.compile_alike hnames ha hb hcompile (heq ▸ hcompile')).2

/-- A person, and another one of whom the name is given. -/
def twoPeople : Collection where
  entities :=
    [{ index := 0
       schema :=
         { targetClass := some "ex:Person"
           context := [("name", .str "ex:name")]
           properties := [("name", {})] }
       resolveType := true },
     { index := 1
       schema :=
         { targetClass := some "ex:Person"
           context := [("name", .str "ex:name")]
           properties := [("name", {})] }
       conditions := [("name", .value (.str "Ann"))] }]

/-- The second person is looked for as if there was no first one. -/
theorem compileParts_isolated_twoPeople :
    twoPeople.writtenNames = [] ∧
      ∃ parts p, twoPeople.compileParts .exampleOrg {} {} = .ok parts ∧ parts[1]? = some p ∧
        p.fragment.filters.length = 1 ∧
        ∃ alone a, p.entity.compile .exampleOrg {} {} .empty = .ok (alone, a) ∧
          ∃ ρ : Renaming, p.fragment = alone.rename ρ := by
  have hnames : twoPeople.writtenNames = [] :=
    writtenNames_eq_nil (by simp [twoPeople, Condition.sharedName?, Condition.isComputed])
  obtain ⟨parts, p, h, hp, hfilters⟩ :
      ∃ parts p, twoPeople.compileParts .exampleOrg {} {} = .ok parts ∧ parts[1]? = some p ∧
        p.fragment.filters.length = 1 :=
    ⟨_, _, rfl, rfl, by decide +kernel⟩
  obtain ⟨-, halone, -⟩ := compileParts_isolated hnames h hp
  exact ⟨hnames, parts, p, h, hp, hfilters, halone⟩

end Collection

end ObjectGraph
