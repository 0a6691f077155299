import ObjectGraph.Proofs.Compile.Draft

/-!
# What an update matches

An update matches its keys one by one: first those of conditions, then those of the
data that no condition has matched.  Each key adds its pattern and its filter to what
is there and takes fresh names only, so every fact that fresh names keep holds where a
key is reached (`Matches.foldl_visits`) and at the end (`compileUpdate_alloc`).  What the
operation is made of is said once, in `compileUpdate_cases`.
-/

namespace ObjectGraph

open Sparql (Var Term Triple Expression Pattern Operation)

namespace Entity

namespace Matches

variable {ns : Namespaces} {e : Entity} {m m' : Matches}

/-- Nothing that was matched is lost. -/
structure Extends (m m' : Matches) : Prop where
  optional : m.optional ⊆ m'.optional
  filters : m.filters ⊆ m'.filters

theorem Extends.refl (m : Matches) : Extends m m :=
  ⟨List.Subset.refl _, List.Subset.refl _⟩

theorem Extends.trans {m₁ m₂ m₃ : Matches} (h : Extends m₁ m₂) (h' : Extends m₂ m₃) :
    Extends m₁ m₃ :=
  ⟨List.Subset.trans h.optional h'.optional, List.Subset.trans h.filters h'.filters⟩

/-- A condition loses nothing of what was matched. -/
theorem addCondition_extends (subject : Term) (m : Matches) (entry : String × Mapping × Condition) :
    Extends m (m.addCondition ns e subject entry) :=
  ⟨List.subset_append_left _ _, List.subset_append_left _ _⟩

/-- Conditions lose nothing of what was matched. -/
theorem foldl_extends (subject : Term) (entries : List (String × Mapping × Condition))
    (m : Matches) : Extends m (entries.foldl (addCondition ns e subject) m) := by
  induction entries generalizing m with
  | nil => exact .refl m
  | cons entry rest ih => exact (addCondition_extends subject m entry).trans (ih _)

end Matches

end Entity

/-- A condition draws fresh names alone. -/
theorem Enduring.addCondition {P : Allocator → Prop} (h : Enduring P) {ns : Namespaces}
    {e : Entity} {m : Entity.Matches} (subject : Term) (entry : String × Mapping × Condition)
    (hm : P m.alloc) : P (m.addCondition ns e subject entry).alloc :=
  h.conditionFilter entry.2.2 (h.join _ hm)

namespace Entity

namespace Matches

variable {ns : Namespaces} {e : Entity} {m : Matches}

/-- What fresh names keep all conditions keep. -/
theorem foldl_alloc {P : Allocator → Prop} (hP : Enduring P) (subject : Term)
    (entries : List (String × Mapping × Condition)) (hm : P m.alloc) :
    P (entries.foldl (addCondition ns e subject) m).alloc := by
  induction entries generalizing m with
  | nil => exact hm
  | cons entry rest ih => exact ih (hP.addCondition subject entry hm)

/-- Each condition is reached in a state that keeps what fresh names keep, and what
it adds is still there at the end. -/
theorem foldl_visits {P : Allocator → Prop} (hP : Enduring P) (subject : Term)
    {entries : List (String × Mapping × Condition)} {entry : String × Mapping × Condition}
    (hentry : entry ∈ entries) (hm : P m.alloc) :
    ∃ m' : Matches, P m'.alloc ∧
      Extends (m'.addCondition ns e subject entry)
        (entries.foldl (addCondition ns e subject) m) := by
  induction entries generalizing m with
  | nil => cases hentry
  | cons first rest ih =>
      rcases List.mem_cons.mp hentry with rfl | hentry
      · exact ⟨m, hm, foldl_extends subject rest _⟩
      · exact ih hentry (hP.addCondition subject first hm)

/-- The old values of the data add patterns and no filter, and they are deleted from
the subject. -/
theorem oldValues_spec {P : Allocator → Prop} (hP : Enduring P) (subject : Term)
    (data : List (String × Mapping × Json.Value)) (hm : P m.alloc) :
    P (m.oldValues e subject data).2.alloc ∧
      (m.oldValues e subject data).2.filters = m.filters ∧
      m.optional ⊆ (m.oldValues e subject data).2.optional ∧
      ∀ t ∈ (m.oldValues e subject data).1, ∃ d ∈ data, ∃ y, t = d.2.1.triple subject (.var y) := by
  induction data generalizing m with
  | nil => exact ⟨hm, rfl, List.Subset.refl _, by simp [oldValues]⟩
  | cons d rest ih =>
      obtain ⟨key, mapping, v⟩ := d
      obtain ⟨x, found, hvalue, hfound, hfilters, hoptional⟩ :
          ∃ x found, m.oldValue e subject key mapping = (x, found) ∧ P found.alloc ∧
            found.filters = m.filters ∧ m.optional ⊆ found.optional := by
        unfold oldValue
        cases Assoc.get? m.vars key with
        | some x => exact ⟨x, m, rfl, hm, rfl, List.Subset.refl _⟩
        | none => exact ⟨_, _, rfl, hP.join _ hm, rfl, List.subset_append_left _ _⟩
      obtain ⟨hlast, hsame, hmore, hdelete⟩ := ih hfound
      simp only [oldValues, hvalue]
      refine ⟨hlast, hsame.trans hfilters, List.Subset.trans hoptional hmore, ?_⟩
      intro t ht
      rcases List.mem_cons.mp ht with rfl | ht
      · exact ⟨_, List.mem_cons_self, x, rfl⟩
      · obtain ⟨d, hd, y, rfl⟩ := hdelete t ht
        exact ⟨d, List.mem_cons_of_mem _ hd, y, rfl⟩

end Matches

/-- The group of an update: the class, then what may be missing, then the filters. -/
def updateGroup (required optional : List Triple) (filters : List Expression) : List Pattern :=
  .triples required :: optional.map .optionalTriple ++ filters.map .filter

/-- The conditions by which an update finds its subject; a fixed one is not looked for. -/
def keyConditions (ns : Namespaces) (e : Entity) (subject : Term) :
    List (String × Mapping × Condition) :=
  if subject.asVar?.isSome then e.updateConditions ns else []

/-- What an update has matched when it comes to the data. -/
def matchedConditions (ns : Namespaces) (e : Entity) (subject : Term) (a : Allocator) : Matches :=
  (e.keyConditions ns subject).foldl (Matches.addCondition ns e subject) { alloc := a }

variable {ns : Namespaces} {e : Entity} {a a' : Allocator}

/-- The conditions that find the subject are among those of the update. -/
theorem keyConditions_subset (subject : Term) :
    e.keyConditions ns subject ⊆ e.updateConditions ns := by
  unfold keyConditions
  split
  · exact List.Subset.refl _
  · exact List.nil_subset _

/-- An update matches the keys of conditions and then those of the data. -/
theorem compileUpdate_cases {op : Operation} (h : e.compileUpdate ns a = .ok (op, a')) :
    ∃ subject b, e.subjectTerm ns a = .ok (subject, b) ∧
      let old := (e.matchedConditions ns subject b).oldValues e subject (e.storedData ns)
      op = .modify old.1 ((e.storedData ns).flatMap (e.dataTriples ns subject))
        (updateGroup ((e.class? ns).toList.map (exactType subject)) old.2.optional
          old.2.filters) ∧
      a' = old.2.alloc := by
  unfold compileUpdate at h
  cases hs : e.subjectTerm ns a with
  | error x => simp [hs, bind, Except.bind] at h
  | ok made =>
      obtain ⟨subject, b⟩ := made
      simp only [hs, bind, Except.bind, Except.ok.injEq, Prod.mk.injEq] at h
      exact ⟨subject, b, rfl, h.1.symm, h.2.symm⟩

/-- An update leaves of the allocator what fresh names keep from its subject on. -/
theorem compileUpdate_alloc {P : Allocator → Prop} (hP : Enduring P) {op : Operation}
    (h : e.compileUpdate ns a = .ok (op, a'))
    (hsubject : ∀ subject b, e.subjectTerm ns a = .ok (subject, b) → P b) : P a' := by
  obtain ⟨subject, b, hs, -, rfl⟩ := compileUpdate_cases h
  refine (Matches.oldValues_spec hP subject (e.storedData ns) ?_).1
  exact Matches.foldl_alloc hP subject _ (hsubject subject b hs)

/-- The filters of the group of an update are those it is given. -/
theorem filter_mem_updateGroup {required optional : List Triple} {filters : List Expression}
    {g : Expression} : .filter g ∈ updateGroup required optional filters ↔ g ∈ filters := by
  simp [updateGroup, Pattern.optionalTriple]

/-- A triple that may be missing is in the group of an update. -/
theorem optionalTriple_mem_updateGroup {required optional : List Triple}
    {filters : List Expression} {t : Triple} (h : t ∈ optional) :
    .optionalTriple t ∈ updateGroup required optional filters := by
  simp only [updateGroup, List.cons_append, List.mem_cons, List.mem_append]
  exact .inr (.inl (List.mem_map_of_mem h))

end Entity

end ObjectGraph
