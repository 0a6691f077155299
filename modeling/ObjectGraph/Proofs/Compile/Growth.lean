import ObjectGraph.Proofs.Compile.Draft

/-!
# No step is left out

The type, each selected key and each condition of an entity is reached in a draft of
which the invariant of the run holds, and whatever relation the steps keep up leads from
what they make of it to the last draft (`compile_walk`).

One such relation is growth: no step takes a triple, a filter or a computed key back,
and none moves the subject (`Types.extends`, `Selects.extends`, `Restricts.extends`), so
all that a step adds is in the fragment.

The drafts on the way have names too: `selecting` is the one after some selected keys and
`restricting` the one after some conditions.
-/

namespace ObjectGraph

open Sparql (Var Term Triple Expression)

/-- All of a fragment is in another one of the same subject. -/
structure Fragment.Extends (f f' : Fragment) : Prop where
  subject : f'.subject = f.subject
  mandatory : f.mandatory ⊆ f'.mandatory
  optional : f.optional ⊆ f'.optional
  filters : f.filters ⊆ f'.filters
  binds : f.binds ⊆ f'.binds

namespace Fragment.Extends

variable {f f' f'' : Fragment}

theorem refl (f : Fragment) : f.Extends f :=
  ⟨rfl, List.Subset.refl _, List.Subset.refl _, List.Subset.refl _, List.Subset.refl _⟩

/-- The keys asked for are no part of what grows. -/
theorem selected (f : Fragment) (keys : List String) :
    f.Extends { f with selected := keys } :=
  ⟨rfl, List.Subset.refl _, List.Subset.refl _, List.Subset.refl _, List.Subset.refl _⟩

theorem trans (h : f.Extends f') (h' : f'.Extends f'') : f.Extends f'' where
  subject := h'.subject.trans h.subject
  mandatory := List.Subset.trans h.mandatory h'.mandatory
  optional := List.Subset.trans h.optional h'.optional
  filters := List.Subset.trans h.filters h'.filters
  binds := List.Subset.trans h.binds h'.binds

end Fragment.Extends

namespace Draft

variable {ns : Namespaces} {config : Config} {options : CompileOptions} {e : Entity}
  {key : String} {d d' : Draft}

/-- A type loses nothing of a fragment. -/
theorem Types.extends (h : Types ns e d d') : d.fragment.Extends d'.fragment := by
  cases h with
  | resolved =>
      exact ⟨rfl, List.subset_append_left _ _, List.Subset.refl _, List.subset_append_left _ _,
        List.Subset.refl _⟩
  | exact =>
      exact ⟨rfl, List.subset_append_left _ _, List.Subset.refl _, List.Subset.refl _,
        List.Subset.refl _⟩
  | untyped => exact .refl _

/-- A selected key loses nothing of a fragment. -/
theorem Selects.extends (h : Selects ns options e key d d') :
    d.fragment.Extends d'.fragment := by
  cases h with
  | pinned | type | computed | unknown | unmapped => exact .refl _
  | identity | borrowed | deferred =>
      exact ⟨rfl, List.Subset.refl _, List.Subset.refl _, List.Subset.refl _, List.Subset.refl _⟩
  | property =>
      refine ⟨rfl, ?_, ?_, List.subset_append_left _ _, List.Subset.refl _⟩
      · rw [addProperty_mandatory]
        split
        · exact List.subset_append_left _ _
        · exact List.Subset.refl _
      · rw [addProperty_optional]
        split
        · exact List.Subset.refl _
        · exact List.subset_append_left _ _

/-- A condition loses nothing of a fragment. -/
theorem Restricts.extends {c : Condition} (h : Restricts ns config e key d c d') :
    d.fragment.Extends d'.fragment := by
  cases h with
  | keyword | selected | unmapped => exact .refl _
  | computed =>
      exact ⟨rfl, List.Subset.refl _, List.Subset.refl _, List.Subset.refl _,
        List.subset_append_left _ _⟩
  | existence =>
      exact ⟨rfl, List.Subset.refl _, List.Subset.refl _, List.subset_append_left _ _,
        List.Subset.refl _⟩
  | hidden =>
      exact ⟨rfl, List.subset_append_left _ _, List.Subset.refl _, List.subset_append_left _ _,
        List.Subset.refl _⟩

end Draft

/-- A relation between a draft and what later steps make of it. -/
structure Draft.Builds (grows : Draft → Draft → Prop) : Prop where
  refl : ∀ d, grows d d
  trans : ∀ d d' d'', grows d d' → grows d' d'' → grows d d''

/-- Fragments grow with every step. -/
theorem Draft.builds_extends : Builds fun d d' => d.fragment.Extends d'.fragment :=
  ⟨fun d => .refl d.fragment, fun _ _ _ h h' => h.trans h'⟩

/-- Each entry of a run is reached in a draft that keeps the invariant, and what its
step makes grows to the last draft. -/
theorem Draft.foldl_visits {α : Type} {step : Draft → α → Draft} {holds : Draft → Prop}
    {grows : Draft → Draft → Prop} (hgrows : Builds grows) {entries : List α}
    (hstep : ∀ a ∈ entries, ∀ d, holds d → holds (step d a) ∧ grows d (step d a)) {d : Draft}
    (hd : holds d) :
    holds (entries.foldl step d) ∧ grows d (entries.foldl step d) ∧
      ∀ a ∈ entries, ∃ d', holds d' ∧ grows (step d' a) (entries.foldl step d) := by
  induction entries generalizing d with
  | nil => exact ⟨hd, hgrows.refl d, by simp⟩
  | cons a rest ih =>
      obtain ⟨hnext, hfirst⟩ := hstep a List.mem_cons_self d hd
      obtain ⟨hlast, hrest, hvisits⟩ :=
        ih (fun b hb => hstep b (List.mem_cons_of_mem _ hb)) hnext
      refine ⟨hlast, hgrows.trans _ _ _ hfirst hrest, fun b hb => ?_⟩
      rcases List.mem_cons.mp hb with rfl | hb
      · exact ⟨d, hd, hrest⟩
      · exact hvisits b hb

/-- Every step of an entity is taken from a draft of which the invariant holds, and grows
to the last draft. -/
structure Entity.Walk (ns : Namespaces) (config : Config) (options : CompileOptions)
    (e : Entity) (a : Allocator) (holds : Draft → Prop) (grows : Draft → Draft → Prop)
    (last : Draft) : Prop where
  kept : holds last
  opening : ∃ subject b, e.subjectTerm ns a = .ok (subject, b) ∧
    grows (Draft.opening ns e subject b) last
  type : ∃ d d', holds d ∧ Draft.Types ns e d d' ∧ grows d' last
  selected : ∀ key ∈ e.selectedKeys, ∃ d d', holds d ∧ Draft.Selects ns options e key d d' ∧
    grows d' last
  conditions : ∀ entry ∈ e.conditions, ∃ d d', holds d ∧
    Draft.Restricts ns config e entry.1 d entry.2 d' ∧ grows d' last

/-- **No step is left out.**  What the steps of an entity keep holds of each draft that
one of them starts from, and a relation that they keep up leads to the last one. -/
theorem Entity.compile_walk {ns : Namespaces} {config : Config} {options : CompileOptions}
    {e : Entity} {a a' : Allocator} {f : Fragment} (holds : Draft → Prop)
    {grows : Draft → Draft → Prop} (hgrows : Draft.Builds grows)
    (hopen : ∀ subject b, e.subjectTerm ns a = .ok (subject, b) →
      holds (Draft.opening ns e subject b))
    (htype : ∀ d d', holds d → Draft.Types ns e d d' → holds d' ∧ grows d d')
    (hselect : ∀ key ∈ e.selectedKeys, ∀ d d', holds d →
      Draft.Selects ns options e key d d' → holds d' ∧ grows d d')
    (hrestrict : ∀ entry ∈ e.conditions, ∀ d d', holds d →
      Draft.Restricts ns config e entry.1 d entry.2 d' → holds d' ∧ grows d d')
    (h : e.compile ns config options a = .ok (f, a')) :
    ∃ last, e.Walk ns config options a holds grows last ∧
      f = { last.fragment with selected := e.selectedKeys } ∧ a' = last.alloc := by
  unfold compile at h
  cases hs : e.subjectTerm ns a with
  | error x => simp [hs, bind, Except.bind] at h
  | ok made =>
      obtain ⟨subject, b⟩ := made
      simp only [hs, bind, Except.bind, Except.ok.injEq, Prod.mk.injEq] at h
      obtain ⟨rfl, rfl⟩ := h
      have hopened : holds (Draft.opening ns e subject b) := hopen subject b hs
      have htypes := Draft.addType_types ns e (Draft.opening ns e subject b)
      obtain ⟨htyped, hfirst⟩ := htype _ _ hopened htypes
      obtain ⟨hselected, hsecond, hselects⟩ := Draft.foldl_visits hgrows
        (fun key hkey d hd =>
          hselect key hkey d _ hd (Draft.addSelected_selects ns options e d key))
        htyped
      obtain ⟨hlast, hthird, hrestricts⟩ := Draft.foldl_visits hgrows
        (fun entry hentry d hd =>
          hrestrict entry hentry d _ hd (Draft.addCondition_restricts ns config e d entry))
        hselected
      have hend := hgrows.trans _ _ _ hsecond hthird
      refine ⟨_, ⟨hlast, ⟨subject, b, hs, ?_⟩, ⟨_, _, hopened, htypes, hend⟩, ?_, ?_⟩, rfl, rfl⟩
      · exact hgrows.trans _ _ _ hfirst hend
      · intro key hkey
        obtain ⟨d, hd, hgrow⟩ := hselects key hkey
        exact ⟨d, _, hd, Draft.addSelected_selects ns options e d key,
          hgrows.trans _ _ _ hgrow hthird⟩
      · intro entry hentry
        obtain ⟨d, hd, hgrow⟩ := hrestricts entry hentry
        exact ⟨d, _, hd, Draft.addCondition_restricts ns config e d entry, hgrow⟩

/-- All that a step adds is in the fragment. -/
theorem Entity.compile_extends {ns : Namespaces} {config : Config} {options : CompileOptions}
    {e : Entity} {a a' : Allocator} {f : Fragment}
    (h : e.compile ns config options a = .ok (f, a')) :
    ∃ last, e.Walk ns config options a (fun _ => True)
        (fun d d' => d.fragment.Extends d'.fragment) last ∧
      f = { last.fragment with selected := e.selectedKeys } ∧ a' = last.alloc :=
  compile_walk (fun _ => True) Draft.builds_extends (fun _ _ _ => trivial)
    (fun _ _ _ hstep => ⟨trivial, hstep.extends⟩)
    (fun _ _ _ _ _ hstep => ⟨trivial, hstep.extends⟩)
    (fun _ _ _ _ _ hstep => ⟨trivial, hstep.extends⟩) h

/-! ## Stages -/

/-- Steps that take nothing back take nothing back together. -/
theorem Draft.foldl_extends {α : Type} {step : Draft → α → Draft}
    (hstep : ∀ (d : Draft) a, d.fragment.Extends (step d a).fragment) (entries : List α)
    (d : Draft) : d.fragment.Extends (entries.foldl step d).fragment := by
  induction entries generalizing d with
  | nil => exact .refl _
  | cons a rest ih => exact (hstep d a).trans (ih _)

namespace Entity

/-- The draft of an entity with its type and the first of its selected keys. -/
def selecting (ns : Namespaces) (options : CompileOptions) (e : Entity) (subject : Term)
    (a : Allocator) (keys : List String) : Draft :=
  keys.foldl (Draft.addSelected ns options e) ((Draft.opening ns e subject a).addType ns e)

/-- The draft of an entity with its selected keys and the first of its conditions. -/
def restricting (ns : Namespaces) (config : Config) (options : CompileOptions) (e : Entity)
    (subject : Term) (a : Allocator) (conditions : List (String × Condition)) : Draft :=
  conditions.foldl (Draft.addCondition ns config e)
    (e.selecting ns options subject a e.selectedKeys)

variable {ns : Namespaces} {config : Config} {options : CompileOptions} {e : Entity}
  {a a' b : Allocator} {f : Fragment} {s : Term}

/-- A fragment is the last of its drafts. -/
theorem compile_restricting (h : e.compile ns config options a = .ok (f, a'))
    (hsubject : e.subjectTerm ns a = .ok (s, b)) :
    f = { (e.restricting ns config options s b e.conditions).fragment with
      selected := e.selectedKeys } := by
  simp only [compile, hsubject, bind, Except.bind, Except.ok.injEq, Prod.mk.injEq] at h
  exact h.1.symm

/-- What drafts keep holds of the draft at each stage of the selection. -/
theorem selecting_holds {holds : Draft → Prop}
    (hopen : holds ((Draft.opening ns e s b).addType ns e)) {done rest : List String}
    (hkeys : e.selectedKeys = done ++ rest)
    (hselect : ∀ key ∈ e.selectedKeys, ∀ d d', holds d →
      Draft.Selects ns options e key d d' → holds d') :
    holds (e.selecting ns options s b done) := by
  refine List.foldlRecOn _ _ hopen fun d hd key hkey => ?_
  have hmem : key ∈ e.selectedKeys := hkeys ▸ List.mem_append_left _ hkey
  exact hselect key hmem d _ hd (Draft.addSelected_selects ns options e d key)

/-- What drafts keep holds of the draft at each stage of the conditions. -/
theorem restricting_holds {holds : Draft → Prop}
    (hselected : holds (e.selecting ns options s b e.selectedKeys))
    {done rest : List (String × Condition)} (hentries : e.conditions = done ++ rest)
    (hrestrict : ∀ entry ∈ e.conditions, ∀ d d', holds d →
      Draft.Restricts ns config e entry.1 d entry.2 d' → holds d') :
    holds (e.restricting ns config options s b done) := by
  refine List.foldlRecOn _ _ hselected fun d hd entry hentry => ?_
  have hmem : entry ∈ e.conditions := hentries ▸ List.mem_append_left _ hentry
  exact hrestrict entry hmem d _ hd (Draft.addCondition_restricts ns config e d entry)

/-- Nothing that a condition adds is taken back. -/
theorem addCondition_extends {done rest : List (String × Condition)} {entry : String × Condition}
    (hentries : e.conditions = done ++ entry :: rest) :
    let d := e.restricting ns config options s b done
    (Draft.addCondition ns config e d entry).fragment.Extends
      (e.restricting ns config options s b e.conditions).fragment := by
  rw [hentries, restricting, restricting, List.foldl_append]
  exact Draft.foldl_extends
    (fun d entry => (Draft.addCondition_restricts ns config e d entry).extends) rest _

/-- Nothing that the selection has is taken back. -/
theorem selection_extends :
    (e.selecting ns options s b e.selectedKeys).fragment.Extends
      (e.restricting ns config options s b e.conditions).fragment :=
  Draft.foldl_extends (fun d entry => (Draft.addCondition_restricts ns config e d entry).extends)
    e.conditions _

/-- Nothing that a selected key adds is taken back. -/
theorem addSelected_extends {done rest : List String} {key : String}
    (hkeys : e.selectedKeys = done ++ key :: rest) :
    (Draft.addSelected ns options e (e.selecting ns options s b done) key).fragment.Extends
      (e.restricting ns config options s b e.conditions).fragment := by
  refine .trans ?_ selection_extends
  rw [hkeys, selecting, selecting, List.foldl_append]
  exact Draft.foldl_extends (fun d key => (Draft.addSelected_selects ns options e d key).extends)
    rest _

/-- Nothing that the type adds is taken back. -/
theorem addType_extends :
    ((Draft.opening ns e s b).addType ns e).fragment.Extends
      (e.restricting ns config options s b e.conditions).fragment :=
  .trans (Draft.foldl_extends
    (fun d key => (Draft.addSelected_selects ns options e d key).extends) e.selectedKeys _)
    selection_extends

end Entity

end ObjectGraph
