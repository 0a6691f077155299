import ObjectGraph.Proofs.Compile.Draft

/-!
# The filters that conditions ask for

`Demands` says which filter a condition of an entity asks for, by the rules of
conditions alone: a value or a relation on a key compares the variable of the key,
a test for existence looks at a property of the subject, and a relation on the
identity compares the subject itself.  Two filters that one condition asks for
differ in the names of their variables only (`Demands.restate`).

The fragment of an entity has no other filters than those its conditions ask for
and those of its type (`compile_filters`).  Its subject keeps its name throughout,
because a name that is taken once is never handed out as a fresh one; this is what
`Held` carries along.
-/

namespace ObjectGraph

open Json (Value)
open Sparql (Var Term Triple Expression Pattern Renaming)

/-- A variable has its name for good: it is in use, and so are the shared names. -/
structure Held (s : Var) (a : Allocator) : Prop where
  sharedUsed : a.SharedUsed
  taken : s.name ∈ a.used

namespace Held

variable {s : Var} {a : Allocator}

/-- A name that is held stays so. -/
theorem lasting (s : Var) : Lasting (Held s) where
  fresh _ n h := ⟨h.sharedUsed.fresh n, List.mem_cons_of_mem _ h.taken⟩
  share _ n h := ⟨h.sharedUsed.share n, List.mem_cons_of_mem _ h.taken⟩

/-- A fresh variable is another one. -/
theorem ne_fresh (h : Held s a) (n : String) : s ≠ (a.fresh n).1 := by
  intro heq
  apply a.fresh_not_mem n
  rw [← heq]
  exact h.taken

/-- A joined variable is another one, unless its shared name was asked for. -/
theorem ne_join_of_name (h : Held s a) {n : String}
    (hname : s.name ∈ a.shared → s.name ≠ Allocator.nameOf n) : s ≠ (a.join n).1 := by
  rcases a.join_cases n with ⟨hmem, heq⟩ | ⟨_, heq⟩
  · rw [heq]
    rintro rfl
    exact hname hmem rfl
  · rw [heq]
    exact h.ne_fresh _

/-- A joined variable is another one, unless the name is shared. -/
theorem ne_join (h : Held s a) (hshared : s.name ∉ a.shared) (n : String) :
    s ≠ (a.join n).1 :=
  h.ne_join_of_name fun hmem => (hshared hmem).elim

end Held

/-- The triple of a property names the two terms that it is between. -/
theorem Mapping.triple_rename (m : Mapping) (s o : Term) (ρ : Renaming) :
    (m.triple s o).rename ρ = m.triple (s.rename ρ) (o.rename ρ) := by
  unfold triple
  cases m.reverse <;> rfl

/-- The test of a property of a subject names its witness and that subject. -/
theorem Mapping.test_rename (m : Mapping) (relation : Relation) (s : Term) (w : Var)
    (ρ : Renaming) : (m.test relation s w).rename ρ = m.test relation (s.rename ρ) (ρ w) := by
  unfold test
  dsimp only
  split <;> simp [Expression.rename, Sparql.renameGroup, Pattern.rename, triple_rename]

namespace Entity

/-- A condition of an entity asks for a filter on a variable: that of its key, the
witness of a test for existence, or the subject itself. -/
inductive Demands (ns : Namespaces) (e : Entity) (subject : Var) :
    String × Condition → Var → Expression → Prop
  | equal {key : String} {m : Mapping} {v : Value} {x : Var} {g : Expression}
      (hkey : Schema.isKeyword key = false) (hmapping : e.mapping? ns key = some m)
      (hfilter : Filter.equality x ns (e.schema.kindOf key).element v = some g) :
      Demands ns e subject (key, .value v) x g
  | compare {key : String} {m : Mapping} {relation : Relation} {values : List Value}
      {x : Var} {g : Expression} (hkey : Schema.isKeyword key = false)
      (hmapping : e.mapping? ns key = some m) (hrelation : relation.isExistence = false)
      (hfilter : Filter.related x ns (e.schema.kindOf key).element relation values = some g) :
      Demands ns e subject (key, .related relation values) x g
  | exist {key : String} {m : Mapping} {relation : Relation} {values : List Value} {w : Var}
      (hkey : Schema.isKeyword key = false) (hmapping : e.mapping? ns key = some m)
      (hrelation : relation.isExistence = true) (hwitness : subject ≠ w) :
      Demands ns e subject (key, .related relation values) w (m.test relation (.var subject) w)
  | identity {relation : Relation} {values : List Value} {g : Expression}
      (hcondition : e.condition? "@id" = some (.related relation values))
      (hfilter : Filter.related subject ns .iri relation values = some g) :
      Demands ns e subject ("@id", .related relation values) subject g

variable {ns : Namespaces} {e : Entity} {subject : Var}

/-- The filter that is put on the variable of a key is what the condition asks for. -/
theorem conditionFilter_demands {m : Mapping} {key : String} {x : Var} {c : Condition}
    {a : Allocator} {g : Expression} (ha : Held subject a)
    (hkey : Schema.isKeyword key = false) (hmapping : e.mapping? ns key = some m)
    (h : (Draft.conditionFilter ns e (.var subject) m key x c a).1 = some g) :
    ∃ y, e.Demands ns subject (key, c) y g := by
  unfold Draft.conditionFilter at h
  cases c with
  | value v => exact ⟨x, .equal hkey hmapping h⟩
  | shared | computed => cases h
  | related relation values =>
      cases hrelation : relation.isExistence with
      | false =>
          simp only [hrelation, Bool.false_eq_true, if_false] at h
          exact ⟨x, .compare hkey hmapping hrelation h⟩
      | true =>
          simp only [hrelation, if_true, Draft.existence_eq, Option.some.injEq] at h
          subst h
          exact ⟨_, .exist hkey hmapping hrelation (ha.ne_fresh _)⟩

/-- What a condition on a key asks for of one subject, it asks for of another one
under other names, and that is the filter put on the variable of the key. -/
theorem Demands.restate {m : Mapping} {key : String} {c : Condition} {x : Var}
    {g : Expression} (h : e.Demands ns subject (key, c) x g) (hid : key ≠ "@id")
    (hm : e.mapping? ns key = some m) {s : Var} {a : Allocator} (ha : Held s a) (x' : Var) :
    ∃ y g', (Draft.conditionFilter ns e (.var s) m key x' c a).1 = some g' ∧
      e.Demands ns s (key, c) y g' ∧ (∃ ρ : Renaming, ρ x = y ∧ g.rename ρ = g') ∧
      (c.narrows = true → y = x') := by
  cases h with
  | @equal _ _ v _ _ hkey hmapping hfilter =>
      have hnew := Filter.equality_rename ns (e.schema.kindOf key).element x v (Equiv.swap x x')
      rw [hfilter, Option.map_some, Equiv.swap_apply_left] at hnew
      exact ⟨x', _, hnew.symm, .equal hkey hmapping hnew.symm,
        ⟨_, Equiv.swap_apply_left x x', rfl⟩, fun _ => rfl⟩
  | @compare _ _ relation values _ _ hkey hmapping hrelation hfilter =>
      have hnew := Filter.related_rename ns (e.schema.kindOf key).element x relation values
        (Equiv.swap x x')
      rw [hfilter, Option.map_some, Equiv.swap_apply_left] at hnew
      refine ⟨x', _, ?_, .compare hkey hmapping hrelation hnew.symm,
        ⟨_, Equiv.swap_apply_left x x', rfl⟩, fun _ => rfl⟩
      simp only [Draft.conditionFilter, hrelation, Bool.false_eq_true, if_false]
      exact hnew.symm
  | @exist _ m' relation values w hkey hmapping hrelation hwitness =>
      obtain rfl : m' = m := Option.some.inj (hmapping.symm.trans hm)
      let w' := (a.fresh (key ++ "Exist" ++ toString e.index)).1
      have hwitness' : s ≠ w' := ha.ne_fresh _
      obtain ⟨ρ, hs, hw⟩ := Sparql.exists_renaming_pair hwitness hwitness'
      refine ⟨w', m'.test relation (.var s) w', ?_, .exist hkey hmapping hrelation hwitness',
        ⟨ρ, hw, ?_⟩, ?_⟩
      · simp only [Draft.conditionFilter, hrelation, if_true, Draft.existence_eq]
        rfl
      · rw [Mapping.test_rename, Term.rename_var, hs, hw]
      · intro hnarrows
        simp [Condition.narrows, hrelation] at hnarrows
  | identity => exact (hid rfl).elim

/-- A condition that asks for a filter on a key is one that an update looks at. -/
theorem Demands.mem_updateConditions {entry : String × Condition} {x : Var} {g : Expression}
    (h : e.Demands ns subject entry x g) (hid : entry.1 ≠ "@id") (hentry : entry ∈ e.conditions) :
    ∃ m, e.mapping? ns entry.1 = some m ∧ (entry.1, m, entry.2) ∈ e.updateConditions ns := by
  cases h with
  | equal hkey hmapping | compare hkey hmapping | exist hkey hmapping =>
      refine ⟨_, hmapping, List.mem_filterMap.mpr ⟨_, hentry, ?_⟩⟩
      simp [hkey, hmapping]
  | identity => exact (hid rfl).elim

/-- A filter that narrows the type of a subject. -/
def NarrowsType (ns : Namespaces) (e : Entity) (subject : Var) (g : Expression) : Prop :=
  e.resolveType = true ∧
    ∃ a, g ∈ (MostSpecificType.compile (.var subject) (e.class? ns) e.index a).1.filters

end Entity

/-- The filters of a draft are those of conditions and of the type, and the one of
the identity is among them. -/
structure Draft.Accounted (ns : Namespaces) (e : Entity) (s : Var) (d : Draft) : Prop where
  subject : d.fragment.subject = .var s
  held : Held s d.alloc
  demanded : ∀ g ∈ d.fragment.filters,
    e.NarrowsType ns s g ∨ ∃ entry ∈ e.conditions, ∃ x, e.Demands ns s entry x g
  identity : ∀ relation values g, e.condition? "@id" = some (.related relation values) →
    Filter.related s ns .iri relation values = some g → g ∈ d.fragment.filters

namespace Draft.Accounted

variable {ns : Namespaces} {config : Config} {options : CompileOptions} {e : Entity} {s : Var}
  {d d' : Draft}

/-- A draft stays accounted for if its new filters are. -/
theorem grow (h : Accounted ns e s d) (hsubject : d'.fragment.subject = d.fragment.subject)
    (hheld : Held s d'.alloc) {new : List Expression}
    (hfilters : d'.fragment.filters = d.fragment.filters ++ new)
    (hnew : ∀ g ∈ new,
      e.NarrowsType ns s g ∨ ∃ entry ∈ e.conditions, ∃ x, e.Demands ns s entry x g) :
    Accounted ns e s d' where
  subject := hsubject.trans h.subject
  held := hheld
  demanded := by
    intro g hg
    rw [hfilters] at hg
    rcases List.mem_append.mp hg with hold | hg
    · exact h.demanded g hold
    · exact hnew g hg
  identity := by
    intro relation values g hcondition hg
    rw [hfilters]
    exact List.mem_append_left _ (h.identity relation values g hcondition hg)

/-- A step that adds no filter keeps the account. -/
theorem quiet (h : Accounted ns e s d) (hsubject : d'.fragment.subject = d.fragment.subject)
    (hheld : Held s d'.alloc) (hfilters : d'.fragment.filters = d.fragment.filters) :
    Accounted ns e s d' :=
  h.grow hsubject hheld (by rw [hfilters, List.append_nil]) (by simp)

/-- The filter of the identity is accounted for. -/
theorem opening {a : Allocator} (ha : Held s a) :
    Accounted ns e s (Draft.opening ns e (.var s) a) := by
  by_cases hc : ∃ relation values, e.condition? "@id" = some (.related relation values)
  · obtain ⟨relation, values, hc⟩ := hc
    have heq : (Draft.opening ns e (.var s) a).fragment.filters =
        (Filter.related s ns .iri relation values).toList := by
      simp [Draft.opening, addIdentity, start, hc]
    refine ⟨by simp [Draft.opening, addIdentity, start, hc], ?_, ?_, ?_⟩
    · rw [opening_alloc]
      exact ha
    · intro g hg
      rw [heq] at hg
      exact .inr ⟨_, Entity.mem_of_condition? hc, s, .identity hc (by simpa using hg)⟩
    · intro relation' values' g hc' hg
      rw [hc] at hc'
      cases hc'
      rw [heq, hg]
      exact List.mem_cons_self
  · have heq : Draft.opening ns e (.var s) a = start ns e (.var s) a := by
      unfold Draft.opening addIdentity
      split
      next relation values _ hid _ => exact (hc ⟨relation, values, hid⟩).elim
      next => rfl
    rw [heq]
    refine ⟨rfl, ha, nofun, ?_⟩
    intro relation values _ hid
    exact (hc ⟨relation, values, hid⟩).elim

/-- A step that adds the type accounts for it. -/
theorem types (h : Accounted ns e s d) (hstep : Types ns e d d') : Accounted ns e s d' := by
  have hheld : Held s d'.alloc := (Held.lasting s).fresh.types hstep h.held
  cases hstep with
  | untyped => exact h
  | exact => exact h.quiet rfl hheld rfl
  | resolved hresolve htype =>
      refine h.grow rfl hheld rfl ?_
      intro g hg
      rw [h.subject] at htype
      exact .inl ⟨hresolve, _, by rw [htype]; exact hg⟩

/-- A filter on the variable of a key is accounted for. -/
theorem key {key : String} {m : Mapping} {c : Condition} {x : Var} {a : Allocator}
    (ha : Held s a) (hentry : (key, c) ∈ e.conditions) (hkey : Schema.isKeyword key = false)
    (hmapping : e.mapping? ns key = some m) :
    ∀ g ∈ (conditionFilter ns e (.var s) m key x c a).1.toList,
      e.NarrowsType ns s g ∨ ∃ entry ∈ e.conditions, ∃ x, e.Demands ns s entry x g := by
  intro g hg
  obtain ⟨y, hy⟩ := Entity.conditionFilter_demands ha hkey hmapping (Option.mem_toList.mp hg)
  exact .inr ⟨_, hentry, y, hy⟩

/-- A step that selects a key accounts for the key. -/
theorem selects (h : Accounted ns e s d) {key : String}
    (hstep : Selects ns options e key d d') : Accounted ns e s d' := by
  have hheld : Held s d'.alloc := (Held.lasting s).selects hstep h.held
  cases hstep with
  | pinned | type | computed | unknown | unmapped => exact h
  | identity | deferred | borrowed => exact h.quiet rfl hheld rfl
  | @property _ m hkey _ _ _ hmapping =>
      have ha : Held s (varFor e key (e.condition? key) d.alloc).2 :=
        (Held.lasting s).varFor key _ h.held
      unfold addProperty at hheld ⊢
      cases hc : e.condition? key with
      | none =>
          rw [hc] at hheld
          exact h.quiet rfl hheld (List.append_nil _)
      | some c =>
          rw [hc] at hheld ha
          refine h.grow rfl hheld rfl ?_
          rw [h.subject]
          exact Accounted.key ha (Entity.mem_of_condition? hc) hkey hmapping

/-- A step that restricts a key accounts for its condition. -/
theorem restricts (h : Accounted ns e s d) {entry : String × Condition}
    (hentry : entry ∈ e.conditions)
    (hstep : Restricts ns config e entry.1 d entry.2 d') : Accounted ns e s d' := by
  have hheld : Held s d'.alloc := (Held.lasting s).restricts hstep h.held
  obtain ⟨key, c⟩ := entry
  cases hstep with
  | keyword | selected | unmapped => exact h
  | computed => exact h.quiet rfl hheld rfl
  | @existence m relation values hkey hmapping hrelation =>
      refine h.grow rfl hheld rfl ?_
      intro g hg
      rw [List.mem_singleton] at hg
      rw [hg, h.subject]
      exact .inr ⟨_, hentry, _, .exist hkey hmapping hrelation (h.held.ne_fresh _)⟩
  | @hidden m c hkey hmapping hnarrows =>
      refine h.grow rfl hheld rfl ?_
      rw [h.subject]
      exact Accounted.key ((Held.lasting s).varFor key _ h.held) hentry hkey hmapping

end Draft.Accounted

namespace Entity

variable {ns : Namespaces} {config : Config} {options : CompileOptions} {e : Entity}
  {a a' : Allocator} {f : Fragment}

/-- A variable subject holds its name. -/
theorem subjectTerm_held {s : Term} (ha : a.SharedUsed) (hfree : e.pin? ns = none)
    (h : e.subjectTerm ns a = .ok (s, a')) : ∃ v, s = .var v ∧ Held v a' := by
  rcases subjectTerm_cases h with ⟨iri, hpin, _⟩ | ⟨_, name, _, hs, rfl⟩ | ⟨_, _, hs, rfl⟩
  · rw [hfree] at hpin
    cases hpin
  · exact ⟨_, hs, ha.share name, List.mem_cons_self⟩
  · exact ⟨_, hs, ha.join _, Allocator.join_name_mem ha _⟩

/-- The filters of the fragment of a variable subject are those that conditions ask
for and those of the type, and what the identity is compared with is among them. -/
theorem compile_filters (ha : a.SharedUsed) (hfree : e.pin? ns = none)
    (h : e.compile ns config options a = .ok (f, a')) :
    ∃ s, f.subject = .var s ∧
      (∀ g ∈ f.filters,
        e.NarrowsType ns s g ∨ ∃ entry ∈ e.conditions, ∃ x, e.Demands ns s entry x g) ∧
      ∀ relation values g, e.condition? "@id" = some (.related relation values) →
        Filter.related s ns .iri relation values = some g → g ∈ f.filters := by
  have hdraft := compile_draft (fun d => ∃ s, Draft.Accounted ns e s d)
    (by
      intro subject b hs
      obtain ⟨s, rfl, hheld⟩ := subjectTerm_held ha hfree hs
      exact ⟨s, Draft.Accounted.opening hheld⟩)
    (fun _ _ ⟨s, hd⟩ hstep => ⟨s, hd.types hstep⟩)
    (fun _ _ _ _ ⟨s, hd⟩ hstep => ⟨s, hd.selects hstep⟩)
    (fun _ hentry _ _ ⟨s, hd⟩ hstep => ⟨s, hd.restricts hentry hstep⟩)
    h
  obtain ⟨d, ⟨s, hd⟩, rfl, rfl⟩ := hdraft
  exact ⟨s, hd.subject, hd.demanded, hd.identity⟩

end Entity

end ObjectGraph
