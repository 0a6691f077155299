import ObjectGraph.Proofs.Compile.Conditions
import ObjectGraph.Proofs.Compile.Exchange
import ObjectGraph.Proofs.Compile.PinnedUpdate
import ObjectGraph.Proofs.Compile.UpdateFilters
import ObjectGraph.Proofs.Variable.Names

/-!
# What the update of found resources does to a graph

An update without a fixed subject looks for its resources: it matches the keys of
conditions, each on a variable of its own in a pattern that may be missing, filters them,
and matches the data keys that no condition has matched.  A data key with a condition has
no second pattern, so what the update deletes of it are the values that the condition lets
through (`Entity.Finds`); those that it does not are left (`diff_found`).
-/

namespace ObjectGraph

open Json (Value)
open Sparql (Var Term Triple Expression Pattern Operation Solution Engine)

namespace Condition

variable {ns : Namespaces} {kind : Kind} {E : Engine} {G : Rdf.Graph} {x y : Var}

/-- A condition that compares nothing has no filter that does. -/
theorem filter?_of_uncompared (c : Condition) (h : c.comparison? = none) :
    c.filter? ns kind x = none := by
  cases c with
  | value => cases h
  | shared | computed => rfl
  | related relation values =>
      cases hrelation : relation.isExistence with
      | true => simp [filter?, hrelation]
      | false => simp [comparison?, hrelation] at h

/-- What a condition compares a variable with, if anything, holds of its term. -/
def Passes (ns : Namespaces) (kind : Kind) (E : Engine) (G : Rdf.Graph) (μ : Solution) (x : Var)
    (c : Condition) : Prop :=
  ∀ g, c.filter? ns kind x = some g → g.IsTrue E G μ

/-- It is the term that passes, whatever variable has it. -/
theorem passes_congr {μ ν : Solution} (h : μ x = ν y) (c : Condition) :
    c.Passes ns kind E G μ x ↔ c.Passes ns kind E G ν y := by
  have hvalue := c.filter?_value (E := E) (G := G) h ns kind
  unfold Passes
  cases hx : c.filter? ns kind x <;> cases hy : c.filter? ns kind y <;> rw [hx, hy] at hvalue
  · exact ⟨nofun, nofun⟩
  · cases hvalue
  · cases hvalue
  · simp [Expression.IsTrue, Option.some.inj hvalue]

end Condition

namespace Entity

/-- The condition on a key by which an update finds its resources, if there is one, holds of
a value. -/
def Finds (ns : Namespaces) (e : Entity) (E : Engine) (G : Rdf.Graph) (key : String)
    (y : Rdf.Term) : Prop :=
  ∀ m c, Assoc.get? (e.updateConditions ns) key = some (m, c) → ∀ x,
    c.Passes ns (e.schema.kindOf key).element E G (fun _ => some y) x

variable {ns : Namespaces} {e : Entity} {E : Engine} {G : Rdf.Graph} {s : Var}

/-- What an update finds its resources by is a condition of the entity. -/
theorem mem_of_updateConditions {entry : String × Mapping × Condition}
    (h : entry ∈ e.updateConditions ns) : (entry.1, entry.2.2) ∈ e.conditions := by
  obtain ⟨⟨key, c⟩, hc, hentry⟩ := List.mem_filterMap.mp h
  dsimp only at hentry
  split at hentry
  · cases hentry
  · cases c with
    | shared | computed => cases hentry
    | value | related =>
        obtain ⟨m, -, rfl⟩ := Option.map_eq_some_iff.mp hentry
        exact hc

/-- Where the conditions on a key compare nothing, every value is found. -/
theorem finds_of_uncompared {key : String}
    (h : ∀ c, (key, c) ∈ e.conditions → c.comparison? = none) (y : Rdf.Term) :
    e.Finds ns E G key y := by
  intro m c hc x g hg
  have huncompared := h c (mem_of_updateConditions (Assoc.mem_of_get? hc))
  rw [c.filter?_of_uncompared huncompared] at hg
  cases hg

/-- A key is filtered by the comparison of its condition, or a test looks for a value. -/
theorem conditionFilter_eq (ns : Namespaces) (e : Entity) (subject : Term) (m : Mapping)
    (key : String) (x : Var) (c : Condition) (a : Allocator) :
    Draft.conditionFilter ns e subject m key x c a =
        (c.filter? ns (e.schema.kindOf key).element x, a) ∨
      c.filter? ns (e.schema.kindOf key).element x = none ∧ ∃ relation,
        Draft.conditionFilter ns e subject m key x c a =
          (some (m.test relation subject (a.fresh (key ++ "Exist" ++ toString e.index)).1),
            (a.fresh (key ++ "Exist" ++ toString e.index)).2) := by
  cases c with
  | value | shared | computed => exact .inl rfl
  | related relation values =>
      simp only [Draft.conditionFilter, Condition.filter?]
      split
      · exact .inr ⟨rfl, relation, rfl⟩
      · exact .inl rfl

namespace Matches

variable {m m' : Matches} {ps : List (Mapping × Var)}

/-- Each property is matched on a variable of its own in a pattern that may be missing. -/
structure Asks (s : Var) (m : Matches) (ps : List (Mapping × Var)) : Prop where
  held : Held s m.alloc
  optional : m.optional = ps.map fun p => p.1.triple (.var s) (.var p.2)
  distinct : (s :: ps.map Prod.snd).Nodup
  taken : ∀ p ∈ ps, p.2.name ∈ m.alloc.used

/-- Before the conditions are matched no property is asked for. -/
theorem Asks.start {a : Allocator} (h : Held s a) : Asks s { alloc := a } [] :=
  ⟨h, rfl, by simp, nofun⟩

/-- One more property, on a variable that was free. -/
theorem Asks.grow (h : m.Asks s ps) {x : Var} (hx : x.name ∉ m.alloc.used) (mapping : Mapping)
    (hheld : Held s m'.alloc) (hgrows : m.alloc.used ⊆ m'.alloc.used)
    (htaken : x.name ∈ m'.alloc.used)
    (hoptional : m'.optional = m.optional ++ [mapping.triple (.var s) (.var x)]) :
    m'.Asks s (ps ++ [(mapping, x)]) := by
  refine ⟨hheld, by rw [hoptional, h.optional, List.map_append]; rfl, ?_, ?_⟩
  · have hnew : x ∉ s :: ps.map Prod.snd := by
      intro hmem
      rcases List.mem_cons.mp hmem with rfl | hmem
      · exact hx h.held.taken
      · obtain ⟨p, hp, rfl⟩ := List.mem_map.mp hmem
        exact hx (h.taken p hp)
    rw [List.map_append, ← List.cons_append]
    refine List.nodup_append.mpr ⟨h.distinct, by simp, ?_⟩
    intro y hy z hz heq
    obtain rfl : z = x := List.mem_singleton.mp hz
    exact hnew (heq ▸ hy)
  · intro p hp
    rcases List.mem_append.mp hp with hp | hp
    · exact hgrows (h.taken p hp)
    · rw [List.mem_singleton.mp hp]
      exact htaken

/-- What the conditions of an update have matched: each filter compares the variable of its
key or looks at a witness of its own. -/
structure Probes (ns : Namespaces) (e : Entity) (s : Var)
    (m : Matches) (done : List ((String × Mapping × Condition) × Var)) : Prop where
  asks : m.Asks s (done.map fun q => (q.1.2.1, q.2))
  vars : m.vars = done.map fun q => (q.1.1, q.2)
  filters : ∀ g ∈ m.filters,
    (∃ q ∈ done, q.1.2.2.filter? ns (e.schema.kindOf q.1.1).element q.2 = some g) ∨
      ∃ mapping relation w, g = Mapping.test mapping relation (.var s) w ∧
        w.name ∈ m.alloc.used ∧ w ∉ done.map Prod.snd
  restated : ∀ q ∈ done, ∀ g,
    q.1.2.2.filter? ns (e.schema.kindOf q.1.1).element q.2 = some g → g ∈ m.filters

/-- One more condition with the filter that it asks for, or a test with a free witness. -/
theorem Probes.grow {done : List ((String × Mapping × Condition) × Var)}
    (h : m.Probes ns e s done) {entry : String × Mapping × Condition} {x : Var}
    (hx : x.name ∉ m.alloc.used) {new : List Expression}
    (hasks : m'.Asks s ((done ++ [(entry, x)]).map fun q => (q.1.2.1, q.2)))
    (hgrows : m.alloc.used ⊆ m'.alloc.used) (hvars : m'.vars = m.vars ++ [(entry.1, x)])
    (hfilters : m'.filters = m.filters ++ new)
    (hnew : ∀ g ∈ new, entry.2.2.filter? ns (e.schema.kindOf entry.1).element x = some g ∨
      ∃ mapping relation w, g = Mapping.test mapping relation (.var s) w ∧
        w.name ∈ m'.alloc.used ∧ w ∉ (done ++ [(entry, x)]).map Prod.snd)
    (hstated : ∀ g, entry.2.2.filter? ns (e.schema.kindOf entry.1).element x = some g → g ∈ new) :
    m'.Probes ns e s (done ++ [(entry, x)]) := by
  refine ⟨hasks, by rw [hvars, h.vars, List.map_append]; rfl, ?_, ?_⟩
  · intro g hg
    rw [hfilters] at hg
    rcases List.mem_append.mp hg with hg | hg
    · rcases h.filters g hg with ⟨q, hq, hcompares⟩ | ⟨mapping, relation, w, rfl, hused, hw⟩
      · exact .inl ⟨q, List.mem_append_left _ hq, hcompares⟩
      · refine .inr ⟨mapping, relation, w, rfl, hgrows hused, ?_⟩
        rw [List.map_append, List.mem_append, not_or]
        refine ⟨hw, fun hmem => hx ?_⟩
        obtain rfl : w = x := List.mem_singleton.mp hmem
        exact hused
    · exact (hnew g hg).imp_left fun hcompares => ⟨_, List.mem_append_right _ List.mem_cons_self,
        hcompares⟩
  · intro q hq g hcompares
    rw [hfilters]
    rcases List.mem_append.mp hq with hq | hq
    · exact List.mem_append_left _ (h.restated q hq g hcompares)
    · obtain rfl := List.mem_singleton.mp hq
      exact List.mem_append_right _ (hstated g hcompares)

/-- A name that nobody shares is joined as a fresh one. -/
theorem join_of_free {a : Allocator} {n : String} (h : Allocator.nameOf n ∉ a.shared) :
    a.join n = a.fresh (Allocator.nameOf n) := by
  rcases a.join_cases n with ⟨hmem, -⟩ | ⟨-, heq⟩
  · exact (h hmem).elim
  · exact heq

/-- One more condition, on a key whose name nobody shares. -/
theorem Probes.addCondition {done : List ((String × Mapping × Condition) × Var)}
    (h : m.Probes ns e s done) (entry : String × Mapping × Condition)
    (hname : Allocator.nameOf (entry.1 ++ toString e.index) ∉ m.alloc.shared) :
    ∃ x, (m.addCondition ns e (.var s) entry).Probes ns e s (done ++ [(entry, x)]) := by
  obtain ⟨key, mapping, c⟩ := entry
  let drawn := m.alloc.fresh (Allocator.nameOf (key ++ toString e.index))
  let filtered := Draft.conditionFilter ns e (.var s) mapping key drawn.1 c drawn.2
  have hmatched : m.addCondition ns e (.var s) (key, mapping, c) =
      { alloc := filtered.2
        vars := m.vars ++ [(key, drawn.1)]
        optional := m.optional ++ [mapping.triple (.var s) (.var drawn.1)]
        filters := m.filters ++ filtered.1.toList } := by
    simp only [Matches.addCondition, join_of_free hname]
    rfl
  have hx : drawn.1.name ∉ m.alloc.used := m.alloc.fresh_not_mem _
  have hheld : Held s filtered.2 :=
    (Held.lasting s).fresh.conditionFilter c ((Held.lasting s).fresh _ _ h.asks.held)
  have hused : drawn.2.used ⊆ filtered.2.used := by
    intro n hn
    have hlasts : Enduring fun a => n ∈ a.used := fun _ _ hmem => List.mem_cons_of_mem _ hmem
    exact hlasts.conditionFilter c hn
  have hgrows : m.alloc.used ⊆ filtered.2.used := fun n hn => hused (List.mem_cons_of_mem _ hn)
  have htaken : drawn.1.name ∈ drawn.2.used := List.mem_cons_self
  rw [hmatched]
  refine ⟨drawn.1, h.grow hx ?_ hgrows rfl rfl ?_ ?_⟩
  · rw [List.map_append]
    exact h.asks.grow hx mapping hheld hgrows (hused htaken) rfl
  · intro g hg
    rcases conditionFilter_eq ns e (.var s) mapping key drawn.1 c drawn.2 with
      heq | ⟨-, relation, heq⟩
    · refine .inl ?_
      rw [Option.mem_toList, show filtered = _ from heq] at hg
      exact hg
    · rw [Option.mem_toList, show filtered = _ from heq] at hg
      obtain rfl := Option.some.inj hg
      have hwitness := drawn.2.fresh_not_mem (key ++ "Exist" ++ toString e.index)
      refine .inr ⟨mapping, relation, _, rfl, ?_, ?_⟩
      · rw [show filtered = _ from heq]
        exact List.mem_cons_self
      · rw [List.map_append, List.mem_append, not_or]
        constructor
        · intro hmem
          obtain ⟨q, hq, hqw⟩ := List.mem_map.mp hmem
          have hold := h.asks.taken _ (List.mem_map_of_mem hq)
          exact hwitness (hqw ▸ List.mem_cons_of_mem _ hold)
        · intro hmem
          exact hwitness (List.mem_singleton.mp hmem ▸ htaken)
  · intro g hcompares
    rcases conditionFilter_eq ns e (.var s) mapping key drawn.1 c drawn.2 with
      heq | ⟨hnone, -⟩
    · rw [Option.mem_toList, show filtered = _ from heq]
      exact hcompares
    · rw [hnone] at hcompares
      cases hcompares

/-- All conditions, on keys whose names nobody shares. -/
theorem Probes.foldl {done : List ((String × Mapping × Condition) × Var)}
    (h : m.Probes ns e s done) (entries : List (String × Mapping × Condition))
    (hnames : ∀ entry ∈ entries, Allocator.nameOf (entry.1 ++ toString e.index) ∉ m.alloc.shared) :
    ∃ rest, rest.map Prod.fst = entries ∧
      (entries.foldl (Matches.addCondition ns e (.var s)) m).Probes ns e s (done ++ rest) := by
  induction entries generalizing m done with
  | nil => exact ⟨[], rfl, by simpa using h⟩
  | cons entry entries ih =>
      obtain ⟨x, hx⟩ := h.addCondition entry (hnames entry List.mem_cons_self)
      have hsame : (m.addCondition ns e (.var s) entry).alloc.shared = m.alloc.shared := by
        have hlasts : Enduring fun a => a.shared = m.alloc.shared := fun _ _ heq => heq
        exact hlasts.addCondition _ entry rfl
      obtain ⟨rest, hrest, hlast⟩ := ih hx fun entry' hmem => by
        rw [hsame]
        exact hnames entry' (List.mem_cons_of_mem _ hmem)
      refine ⟨(entry, x) :: rest, by rw [List.map_cons, hrest], ?_⟩
      rw [List.append_cons]
      exact hlast

/-- The old values of the data keys, each on the variable that a condition has matched or on
a free one. -/
theorem Asks.oldValues (h : m.Asks s ps) (data : List (String × Mapping × Value))
    (hdata : ∀ d ∈ data, e.mapping? ns d.1 = some d.2.1)
    (hnames : ∀ d ∈ data, Allocator.nameOf (d.1 ++ toString e.index) ∉ m.alloc.shared)
    (hvars : ∀ key x mapping, (key, x) ∈ m.vars → e.mapping? ns key = some mapping →
      (mapping, x) ∈ ps) :
    ∃ (olds : List ((String × Mapping × Value) × Var)) (more : List (Mapping × Var)),
      olds.map Prod.fst = data ∧
      (m.oldValues e (.var s) data).1 =
        olds.map (fun q => q.1.2.1.triple (.var s) (.var q.2)) ∧
      (m.oldValues e (.var s) data).2.optional =
        (ps ++ more).map (fun p => p.1.triple (.var s) (.var p.2)) ∧
      (s :: (ps ++ more).map Prod.snd).Nodup ∧
      (m.oldValues e (.var s) data).2.filters = m.filters ∧
      ∀ q ∈ olds, (q.1.2.1, q.2) ∈ ps ++ more ∧
        (Assoc.get? m.vars q.1.1 = some q.2 ∨
          Assoc.get? m.vars q.1.1 = none ∧ q.2.name ∉ m.alloc.used) := by
  induction data generalizing m ps with
  | nil =>
      exact ⟨[], [], rfl, rfl, by simpa [Matches.oldValues] using h.optional,
        by simpa using h.distinct, rfl, by simp⟩
  | cons d rest ih =>
      obtain ⟨key, mapping, v⟩ := d
      have hmapping : e.mapping? ns key = some mapping := hdata _ List.mem_cons_self
      have hdata' : ∀ d ∈ rest, e.mapping? ns d.1 = some d.2.1 := fun d hd =>
        hdata d (List.mem_cons_of_mem _ hd)
      have hnames' : ∀ d ∈ rest, Allocator.nameOf (d.1 ++ toString e.index) ∉ m.alloc.shared :=
        fun d hd => hnames d (List.mem_cons_of_mem _ hd)
      cases hkey : Assoc.get? m.vars key with
      | some x =>
          have hvalue : m.oldValue e (.var s) key mapping = (x, m) := by
            unfold Matches.oldValue
            rw [hkey]
          obtain ⟨olds, more, holds, hdelete, hoptional, hdistinct, hfilters, hspec⟩ :=
            ih h hdata' hnames' hvars
          refine ⟨((key, mapping, v), x) :: olds, more, by rw [List.map_cons, holds], ?_, ?_,
            hdistinct, ?_, ?_⟩
          · simp only [Matches.oldValues, hvalue, hdelete, List.map_cons]
          · simp only [Matches.oldValues, hvalue, hoptional]
          · simp only [Matches.oldValues, hvalue, hfilters]
          · intro q hq
            rcases List.mem_cons.mp hq with rfl | hq
            · have hasked := hvars key x mapping (Assoc.mem_of_get? hkey) hmapping
              exact ⟨List.mem_append_left _ hasked, .inl hkey⟩
            · exact hspec q hq
      | none =>
          let drawn := m.alloc.fresh (Allocator.nameOf (key ++ toString e.index))
          let m' : Matches :=
            { m with
              alloc := drawn.2
              optional := m.optional ++ [mapping.triple (.var s) (.var drawn.1)] }
          have hvalue : m.oldValue e (.var s) key mapping = (drawn.1, m') := by
            unfold Matches.oldValue
            rw [hkey]
            dsimp only
            rw [join_of_free (hnames _ List.mem_cons_self)]
          have hx : drawn.1.name ∉ m.alloc.used := m.alloc.fresh_not_mem _
          have hasks : m'.Asks s (ps ++ [(mapping, drawn.1)]) :=
            h.grow hx mapping ((Held.lasting s).fresh _ _ h.held) (List.subset_cons_self _ _)
              List.mem_cons_self rfl
          obtain ⟨olds, more, holds, hdelete, hoptional, hdistinct, hfilters, hspec⟩ :=
            ih hasks hdata' hnames' fun key' x mapping' hmem hmapping' =>
              List.mem_append_left _ (hvars key' x mapping' hmem hmapping')
          rw [← List.append_cons] at hoptional hdistinct
          refine ⟨((key, mapping, v), drawn.1) :: olds, (mapping, drawn.1) :: more,
            by rw [List.map_cons, holds], ?_, ?_, hdistinct, ?_, ?_⟩
          · simp only [Matches.oldValues, hvalue, hdelete, List.map_cons]
          · simp only [Matches.oldValues, hvalue, hoptional]
          · simp only [Matches.oldValues, hvalue, hfilters, m']
          · intro q hq
            rcases List.mem_cons.mp hq with rfl | hq
            · exact ⟨List.mem_append_right _ List.mem_cons_self, .inr ⟨hkey, hx⟩⟩
            · obtain ⟨hasked, hknown⟩ := hspec q hq
              rw [← List.append_cons] at hasked
              refine ⟨hasked, hknown.imp_right fun hfree => ?_⟩
              exact ⟨hfree.1, fun hmem => hfree.2 (List.mem_cons_of_mem _ hmem)⟩

/-- The variable of a key that is matched is that of the first condition on it. -/
theorem get?_matched {done : List ((String × Mapping × Condition) × Var)} {key : String} :
    (∀ x, Assoc.get? (done.map fun q => (q.1.1, q.2)) key = some x →
      ∃ q ∈ done, q.1.1 = key ∧ q.2 = x ∧ Assoc.get? (done.map Prod.fst) key = some q.1.2) ∧
    (Assoc.get? (done.map fun q => (q.1.1, q.2)) key = none →
      Assoc.get? (done.map Prod.fst) key = none) := by
  induction done with
  | nil => simp [Assoc.get?]
  | cons q rest ih =>
      obtain ⟨⟨k, entry⟩, x⟩ := q
      simp only [List.map_cons, Assoc.get?]
      by_cases hk : k = key
      · subst hk
        simp only [if_true]
        exact ⟨fun y hy => ⟨_, List.mem_cons_self, rfl, Option.some.inj hy, rfl⟩, by simp⟩
      · simp only [hk, if_false]
        refine ⟨fun y hy => ?_, ih.2⟩
        obtain ⟨q, hq, hkey, hx, hget⟩ := ih.1 y hy
        exact ⟨q, List.mem_cons_of_mem _ hq, hkey, hx, hget⟩

/-- **A value exchanged.**  A solution that passes the filters still does with another value
of a data key, exactly if the condition on the key finds that value. -/
theorem Probes.exchange {done : List ((String × Mapping × Condition) × Var)}
    (h : m.Probes ns e s done) (hdone : done.map Prod.fst = e.updateConditions ns)
    {key : String} {x : Var} (hxs : x ≠ s)
    (hx : Assoc.get? m.vars key = some x ∨ Assoc.get? m.vars key = none ∧ x.name ∉ m.alloc.used)
    {μ : Solution} (hμ : ∀ g ∈ m.filters, g.IsTrue E G μ) (y : Rdf.Term) :
    (∀ g ∈ m.filters, g.IsTrue E G (Function.update μ x (some y))) ↔ e.Finds ns E G key y := by
  have hvars : (done.map Prod.snd).Nodup := by
    simpa [Function.comp_def] using (List.nodup_cons.mp h.asks.distinct).2
  -- a filter that does not look at the variable sees no difference
  have helse : ∀ q ∈ done, q.2 ≠ x → ∀ g,
      q.1.2.2.filter? ns (e.schema.kindOf q.1.1).element q.2 = some g →
        g.IsTrue E G (Function.update μ x (some y)) := by
    intro q hq hne g hg
    have hpasses : q.1.2.2.Passes ns (e.schema.kindOf q.1.1).element E G μ q.2 :=
      fun g hg => hμ g (h.restated q hq g hg)
    have hsame : μ q.2 = Function.update μ x (some y) q.2 := (Function.update_of_ne hne _ _).symm
    exact (Condition.passes_congr hsame q.1.2.2).mp hpasses g hg
  have htests : ∀ mapping relation w, w ≠ x →
      Mapping.test mapping relation (.var s) w ∈ m.filters →
        (mapping.test relation (.var s) w).IsTrue E G (Function.update μ x (some y)) := by
    intro mapping relation w hwx hmem
    have hvalue : (mapping.test relation (.var s) w).value? E G μ =
        (mapping.test relation (.var s) w).value? E G (Function.update μ x (some y)) :=
      mapping.test_value (Function.update_of_ne (Ne.symm hxs) (some y) μ).symm
        (Function.update_of_ne hwx (some y) μ).symm relation
    have htrue := hμ _ hmem
    unfold Expression.IsTrue at htrue ⊢
    rwa [hvalue] at htrue
  rw [h.vars] at hx
  rcases hx with hmatched | ⟨hnone, hfree⟩
  · obtain ⟨q₀, hq₀, rfl, rfl, hget⟩ := get?_matched.1 x hmatched
    rw [hdone] at hget
    have hown : ∀ x', q₀.1.2.2.Passes ns (e.schema.kindOf q₀.1.1).element E G
          (Function.update μ q₀.2 (some y)) q₀.2 ↔
        q₀.1.2.2.Passes ns (e.schema.kindOf q₀.1.1).element E G (fun _ => some y) x' :=
      fun x' => Condition.passes_congr (Function.update_self q₀.2 (some y) μ) q₀.1.2.2
    constructor
    · intro hall mapping c hc x'
      obtain ⟨-, rfl⟩ := Prod.mk.inj (Option.some.inj (hget.symm.trans hc))
      exact (hown x').mp fun g hg => hall g (h.restated q₀ hq₀ g hg)
    · intro hfinds g hg
      rcases h.filters g hg with ⟨q, hq, hcompares⟩ | ⟨mapping, relation, w, rfl, -, hw⟩
      · by_cases hqx : q.2 = q₀.2
        · obtain rfl : q = q₀ := List.inj_on_of_nodup_map hvars hq hq₀ hqx
          exact (hown q.2).mpr (hfinds _ _ hget q.2) g hcompares
        · exact helse q hq hqx g hcompares
      · exact htests mapping relation w (fun heq => hw (heq ▸ List.mem_map_of_mem hq₀)) hg
  · have hunmatched := get?_matched.2 hnone
    rw [hdone] at hunmatched
    refine iff_of_true (fun g hg => ?_) fun mapping c hc => ?_
    · rcases h.filters g hg with ⟨q, hq, hcompares⟩ | ⟨mapping, relation, w, rfl, hused, -⟩
      · have htaken : q.2.name ∈ m.alloc.used := h.asks.taken _ (List.mem_map_of_mem hq)
        exact helse q hq (fun heq => hfree (heq ▸ htaken)) g hcompares
      · exact htests mapping relation w (fun heq => hfree (heq ▸ hused)) hg
    · rw [hunmatched] at hc
      cases hc

end Matches

/-- The keys that an update gives variables to. -/
def updateKeys (ns : Namespaces) (e : Entity) : List String :=
  Assoc.keys (e.updateConditions ns) ++ (e.storedData ns).map (·.1)

/-- The update of a variable subject.  It deletes the old values of the data keys, each on a
variable that one of the patterns has; and of a solution that passes the filters, such a value
may be exchanged for those that the condition on its key finds. -/
theorem compileUpdate_of_free {a b : Allocator} (hs : e.subjectTerm ns a = .ok (.var s, b))
    (hb : Held s b)
    (hnames : ∀ key ∈ e.updateKeys ns, Allocator.nameOf (key ++ toString e.index) ∉ b.shared) :
    ∃ (olds : List ((String × Mapping × Value) × Var)) (ps : List (Mapping × Var))
      (filters : List Expression) (a' : Allocator),
      e.compileUpdate ns a =
        .ok (.modify (olds.map fun q => q.1.2.1.triple (.var s) (.var q.2))
          ((e.storedData ns).flatMap (e.dataTriples ns (.var s)))
          (updateGroup ((e.class? ns).toList.map (exactType (.var s)))
            (ps.map fun p => p.1.triple (.var s) (.var p.2)) filters), a') ∧
      olds.map Prod.fst = e.storedData ns ∧ (s :: ps.map Prod.snd).Nodup ∧
      ∀ q ∈ olds, (q.1.2.1, q.2) ∈ ps ∧ ∀ (E : Engine) (G : Rdf.Graph) (μ : Solution),
        (∀ g ∈ filters, g.IsTrue E G μ) → ∀ y,
          ((∀ g ∈ filters, g.IsTrue E G (Function.update μ q.2 (some y))) ↔
            e.Finds ns E G q.1.1 y) := by
  have hconditions : ∀ entry ∈ e.updateConditions ns,
      Allocator.nameOf (entry.1 ++ toString e.index) ∉ b.shared := fun entry hentry =>
    hnames entry.1 (List.mem_append_left _ (List.mem_map_of_mem hentry))
  have hstart : Matches.Probes ns e s { alloc := b } [] := ⟨.start hb, rfl, nofun, nofun⟩
  obtain ⟨done, hdone, hprobes⟩ := hstart.foldl (e.updateConditions ns) hconditions
  let found := (e.updateConditions ns).foldl (Matches.addCondition ns e (.var s)) { alloc := b }
  have hshared : found.alloc.shared = b.shared := by
    have hlasts : Enduring fun a => a.shared = b.shared := fun _ _ heq => heq
    exact Matches.foldl_alloc hlasts _ _ rfl
  rw [List.nil_append] at hprobes
  have hvars : ∀ key x mapping, (key, x) ∈ found.vars → e.mapping? ns key = some mapping →
      (mapping, x) ∈ done.map fun q => (q.1.2.1, q.2) := by
    intro key x mapping hmem hmapping
    rw [hprobes.vars] at hmem
    obtain ⟨q, hq, hqx⟩ := List.mem_map.mp hmem
    obtain ⟨rfl, rfl⟩ := Prod.mk.inj hqx
    have hentry : q.1 ∈ e.updateConditions ns := hdone ▸ List.mem_map_of_mem hq
    obtain rfl := Option.some.inj ((mapping_of_updateConditions hentry).symm.trans hmapping)
    exact List.mem_map_of_mem hq
  obtain ⟨olds, more, holds, hdelete, hoptional, hdistinct, hfilters, hspec⟩ :=
    hprobes.asks.oldValues (e.storedData ns) (fun d hd => mapping_of_storedData hd)
      (fun d hd => by
        rw [hshared]
        exact hnames d.1 (List.mem_append_right _ (List.mem_map_of_mem hd)))
      hvars
  refine ⟨olds, _, found.filters, (found.oldValues e (.var s) (e.storedData ns)).2.alloc, ?_,
    holds, hdistinct, fun q hq => ?_⟩
  · simp only [compileUpdate, hs, bind, Except.bind, Term.asVar?, Option.isSome_some, if_true]
    rw [← hdelete, ← hoptional, ← hfilters]
    rfl
  · obtain ⟨hasked, hknown⟩ := hspec q hq
    refine ⟨hasked, fun E G μ hμ y => hprobes.exchange hdone ?_ hknown hμ y⟩
    rintro rfl
    exact (List.nodup_cons.mp hdistinct).1 (List.mem_map_of_mem hasked)

/-! ## The graph after the update -/

/-- Of a solution of the patterns of an update, any old value of a key may be exchanged. -/
theorem exchanges_updateGroup (class_ : Option String) {ps : List (Mapping × Var)}
    (hdistinct : (s :: ps.map Prod.snd).Nodup) :
    Exchanges G s ps (Sparql.extendAll E G
      ((ps.map fun p => p.1.triple (.var s) (.var p.2)).map .optionalTriple)
      (Sparql.blockSolutions G (class_.toList.map (exactType (.var s))))) := by
  have hsubject : ∀ μ ∈ Sparql.blockSolutions G (class_.toList.map (exactType (.var s))), ∀ v,
      (μ v).isSome → v = s := by
    intro μ hμ v hv
    obtain ⟨t, ht, hv⟩ := List.mem_flatMap.mp ((hμ.1 v).mp hv)
    obtain ⟨C, -, rfl⟩ := List.mem_map.mp ht
    rcases Sparql.Triple.mem_vars_of_iri.mp hv with heq | heq
    · exact (Term.var.inj heq).symm
    · cases heq
  rw [List.map_map]
  exact (Exchanges.start hsubject).run ps (by simpa using hdistinct)

/-- An update takes out what its conditions find among the old values of the data keys, and
nothing else. -/
theorem diff_found (class_ : Option String) {olds : List ((String × Mapping × Value) × Var)}
    {ps : List (Mapping × Var)} {filters : List Expression}
    (holds : olds.map Prod.fst = e.storedData ns) (hdistinct : (s :: ps.map Prod.snd).Nodup)
    (hspec : ∀ q ∈ olds, (q.1.2.1, q.2) ∈ ps ∧ ∀ μ : Solution, (∀ g ∈ filters, g.IsTrue E G μ) →
      ∀ y, ((∀ g ∈ filters, g.IsTrue E G (Function.update μ q.2 (some y))) ↔
        e.Finds ns E G q.1.1 y)) :
    let Ω := Sparql.groupSolutions E G (updateGroup (class_.toList.map (exactType (.var s)))
      (ps.map fun p => p.1.triple (.var s) (.var p.2)) filters)
    G \ Sparql.instances E (olds.map fun q => q.1.2.1.triple (.var s) (.var q.2)) Ω =
      G \ {st | ∃ μ ∈ Ω, ∃ r, μ s = some r ∧ ∃ d ∈ e.storedData ns,
        d.2.1.Touches r st ∧ e.Finds ns E G d.1 (d.2.1.other st)} := by
  intro Ω
  have hexchanges := exchanges_updateGroup (E := E) (G := G) class_ hdistinct
  ext st
  refine and_congr_right fun hst => not_congr ⟨?_, ?_⟩
  · rintro ⟨μ, hμ, t, ht, hdenotes⟩
    obtain ⟨q, hq, rfl⟩ := List.mem_map.mp ht
    obtain ⟨hiri, howner, hother⟩ := Mapping.denotes_triple.mp hdenotes
    refine ⟨μ, hμ, _, howner, q.1, holds ▸ List.mem_map_of_mem hq, ⟨hiri, rfl⟩, ?_⟩
    have hpasses := (mem_groupSolutions_updateGroup.mp hμ).2
    refine ((hspec q hq).2 μ hpasses _).mp ?_
    rw [← show μ q.2 = some (q.1.2.1.other st) from hother, Function.update_eq_self]
    exact hpasses
  · rintro ⟨μ, hμ, r, hr, d, hd, htouches, hfinds⟩
    obtain ⟨q, hq, rfl⟩ := List.mem_map.mp (holds ▸ hd)
    obtain ⟨hasked, hexchange⟩ := hspec q hq
    obtain ⟨hmatched, hpasses⟩ := mem_groupSolutions_updateGroup.mp hμ
    have hqs : q.2 ≠ s := by
      rintro rfl
      exact (List.nodup_cons.mp hdistinct).1 (List.mem_map_of_mem hasked)
    refine ⟨Function.update μ q.2 (some (q.1.2.1.other st)),
      mem_groupSolutions_updateGroup.mpr ⟨?_, ?_⟩, _, List.mem_map_of_mem hq,
      Mapping.denotes_triple.mpr ⟨htouches.1, ?_, Function.update_self _ _ _⟩⟩
    · exact hexchanges.swap μ hmatched r hr _ hasked st hst htouches
    · exact (hexchange μ hpasses _).mpr hfinds
    · rw [Term.value?, Function.update_of_ne (Ne.symm hqs), hr, htouches.2]

end Entity

namespace Collection

open Entity

variable {ns : Namespaces} {c : Collection} {e : Entity}

/-- **The update of found resources.**  About each resource that the WHERE clause finds, it
takes out the old values of the data keys, but of a key with a condition only those that the
condition finds; and it puts in the items of the data that are not null.  So of a key with a
predicate of its own that no condition compares, it leaves just the items of the data. -/
theorem compileUpdate_overwrites {ops : Sparql.Update} (h : c.compileUpdate ns = .ok ops)
    {i : Nat} (he : c.entities[i]? = some e) (hfree : e.pin? ns = none)
    (hnames : ∀ d ∈ c.entities.take (i + 1), ∀ name, d.identityName? = some name →
      ∀ key ∈ e.updateKeys ns,
        Allocator.nameOf name ≠ Allocator.nameOf (key ++ toString e.index)) :
    ∃ s delete insert body, ops[i]? = some (.modify delete insert body) ∧
      (∀ t ∈ delete ++ insert, ∃ d ∈ e.storedData ns, ∃ o, t = d.2.1.triple (.var s) o) ∧
      ∀ (E : Engine) (G : Rdf.Graph),
        let found := {r | ∃ μ ∈ Sparql.groupSolutions E G body, μ s = some r}
        let after := Operation.run E G (.modify delete insert body)
        after =
          (G \ {st | ∃ r ∈ found, ∃ d ∈ e.storedData ns,
            d.2.1.Touches r st ∧ e.Finds ns E G d.1 (d.2.1.other st)}) ∪
          {st | ∃ r ∈ found, ∃ d ∈ e.storedData ns, ∃ v ∈ d.2.2.itemsOrSelf,
            v.isNull = false ∧ e.Holds ns r d v st} ∧
        ∀ r ∈ found, ∀ d ∈ e.storedData ns,
          (∀ d' ∈ e.storedData ns, d'.2.1.iri = d.2.1.iri → d' = d) →
          (∀ condition, (d.1, condition) ∈ e.conditions → condition.comparison? = none) →
          (∀ st, d.2.1.Touches r st →
            (st ∈ after ↔ ∃ v ∈ d.2.2.itemsOrSelf, v.isNull = false ∧ e.Holds ns r d v st)) ∧
          (r.isLiteral = false → ∀ v ∈ d.2.2.itemsOrSelf, v.isNull = false →
            (d.2.1.reverse = true → ∃ iri, Encode.value ns (e.schema.kindOf d.1) v = .iri iri) →
              ∃! st, e.Holds ns r d v st) := by
  have hstart : NamesIdentities [] .empty := ⟨Allocator.sharedUsed_empty, nofun⟩
  obtain ⟨a, op, a', ha, hop, hat⟩ :=
    operations_at NamesIdentities (fun _ _ _ _ _ h h' => h.compileUpdate h') hstart h he
  obtain ⟨subject, b, hs, -⟩ := compileUpdate_cases hop
  obtain ⟨s, rfl, hb⟩ := subjectTerm_held ha.sharedUsed hfree hs
  have hupto : c.entities.take (i + 1) = [] ++ c.entities.take i ++ [e] := by
    rw [List.take_add_one, he]
    rfl
  have hunshared : ∀ key ∈ e.updateKeys ns,
      Allocator.nameOf (key ++ toString e.index) ∉ b.shared := by
    intro key hkey hmem
    obtain ⟨d, hd, name, hname, hsame⟩ := (ha.subjectTerm hs).shared _ hmem
    exact hnames d (hupto ▸ hd) name hname key hkey hsame.symm
  obtain ⟨olds, ps, filters, a₁, hupdate, holds, hdistinct, hspec⟩ :=
    compileUpdate_of_free hs hb hunshared
  obtain ⟨rfl, rfl⟩ := Prod.mk.inj (Except.ok.inj (hop.symm.trans hupdate))
  refine ⟨s, _, _, _, hat, ?_, fun E G => ?_⟩
  · intro t ht
    rcases List.mem_append.mp ht with ht | ht
    · obtain ⟨q, hq, rfl⟩ := List.mem_map.mp ht
      exact ⟨q.1, holds ▸ List.mem_map_of_mem hq, _, rfl⟩
    · obtain ⟨d, hd, ht⟩ := List.mem_flatMap.mp ht
      obtain ⟨object, -, rfl⟩ := List.mem_map.mp ht
      exact ⟨d, hd, object, rfl⟩
  intro found after
  have hafter : after =
      (G \ {st | ∃ r ∈ found, ∃ d ∈ e.storedData ns,
        d.2.1.Touches r st ∧ e.Finds ns E G d.1 (d.2.1.other st)}) ∪
      {st | ∃ r ∈ found, ∃ d ∈ e.storedData ns, ∃ v ∈ d.2.2.itemsOrSelf,
        v.isNull = false ∧ e.Holds ns r d v st} := by
    have hdiff := diff_found (e.class? ns) holds hdistinct fun q hq =>
      ⟨(hspec q hq).1, (hspec q hq).2 E G⟩
    have hfound : ∀ holds : Rdf.Term → Prop,
        (∃ μ ∈ Sparql.groupSolutions E G _, ∃ r, μ s = some r ∧ holds r) ↔
          ∃ r ∈ found, holds r :=
      fun _ => ⟨fun ⟨μ, hμ, r, hr, h⟩ => ⟨r, ⟨μ, hμ, hr⟩, h⟩,
        fun ⟨r, ⟨μ, hμ, hr⟩, h⟩ => ⟨μ, hμ, r, hr, h⟩⟩
    simp only [after, Operation.run, instances_dataTriples, hdiff]
    exact congrArg₂ _ (congrArg (G \ ·) (Set.ext fun _ => hfound _)) (Set.ext fun _ => hfound _)
  refine ⟨hafter, fun r hr d hd halone huncompared => ⟨fun st htouches => ?_, ?_⟩⟩
  · rw [hafter]
    constructor
    · rintro (⟨hst, hkept⟩ | ⟨r', hr', d', hd', v, hv, hnull, hholds⟩)
      · exact (hkept ⟨r, hr, d, hd, htouches, finds_of_uncompared huncompared _⟩).elim
      · obtain rfl : d' = d := halone d' hd' (hholds.1.1.symm.trans htouches.1)
        obtain rfl : r' = r := hholds.1.2.symm.trans htouches.2
        exact ⟨v, hv, hnull, hholds⟩
    · rintro ⟨v, hv, hnull, hholds⟩
      exact .inr ⟨r, hr, d, hd, v, hv, hnull, hholds⟩
  · exact fun hnode v _ _ hreverse => existsUnique_holds hnode d v hreverse

/-- The things with a code and some note get a new name, and their notes go. -/
def codedThing : Entity where
  index := 0
  schema :=
    { targetClass := some "ex:Thing"
      context := [("name", .str "ex:name"), ("note", .str "ex:note"), ("code", .str "ex:code")]
      properties := [("name", { type := some "string" }), ("note", { type := some "string" }),
        ("code", { type := some "string" })] }
  conditions := [("code", .value (.str "x")), ("note", .related .exist [])]
  data := [("name", .str "new"), ("note", .null)]

/-- Each thing that is found has its new name only, and no note. -/
theorem compileUpdate_overwrites_codedThing :
    ∃ s delete insert body,
      (single codedThing).compileUpdate .exampleOrg = .ok [.modify delete insert body] ∧
      ∀ (E : Engine) (G : Rdf.Graph),
        ∀ μ ∈ Sparql.groupSolutions E G body, ∀ r, μ s = some r →
          ∀ st : Rdf.Statement, st.subject = r →
            (st.predicate = "http://example.org/name" →
              (st ∈ Operation.run E G (.modify delete insert body) ↔
                st.object = .literal "new" Vocabulary.xsdString none)) ∧
            (st.predicate = "http://example.org/note" →
              st ∉ Operation.run E G (.modify delete insert body)) := by
  have hdata : codedThing.storedData .exampleOrg =
      [("name", ⟨"http://example.org/name", false⟩, .str "new"),
        ("note", ⟨"http://example.org/note", false⟩, .null)] := rfl
  obtain ⟨op, hops⟩ :
      ∃ op, (single codedThing).compileUpdate .exampleOrg = .ok [op] := ⟨_, rfl⟩
  have hnames : ∀ d ∈ (single codedThing).entities.take 1, ∀ name,
      d.identityName? = some name → ∀ key ∈ codedThing.updateKeys .exampleOrg,
        Allocator.nameOf name ≠ Allocator.nameOf (key ++ toString codedThing.index) := by
    intro d hd name hname
    obtain rfl := List.mem_singleton.mp hd
    cases hname
  obtain ⟨s, delete, insert, body, hop, -, hrun⟩ :=
    compileUpdate_overwrites hops (i := 0) (e := codedThing) rfl rfl hnames
  obtain rfl : op = _ := Option.some.inj hop
  refine ⟨s, delete, insert, body, hops, fun E G μ hμ r hr st hst => ?_⟩
  have hkeys := (hrun E G).2 r ⟨μ, hμ, hr⟩
  rw [hdata] at hkeys
  have hname := hkeys _ (.head _) (by simp) (by simp [codedThing])
  have hnote := hkeys _ (.tail _ (.head _)) (by simp)
    (by simp [codedThing, Condition.comparison?, Relation.isExistence])
  constructor
  · intro hiri
    refine (hname.1 st ⟨hiri, hst⟩).trans ⟨?_, fun hobject => ?_⟩
    · rintro ⟨v, hv, -, -, hvalue⟩
      obtain rfl := List.mem_singleton.mp hv
      exact (Option.some.inj hvalue).symm
    · exact ⟨_, .head _, rfl, ⟨hiri, hst⟩, congrArg some hobject.symm⟩
  · intro hiri hmem
    obtain ⟨v, hv, hnull, -⟩ := (hnote.1 st ⟨hiri, hst⟩).mp hmem
    obtain rfl := List.mem_singleton.mp hv
    cases hnull

/-- Of two old names the update deletes the one that its condition finds.  The other one
stays, although it is none of the data. -/
theorem unfound_name_stays :
    let t : Rdf.Term := .iri "http://example.org/t1"
    let text (s : String) : Rdf.Term := .literal s Vocabulary.xsdString none
    let name (s : String) : Rdf.Statement := ⟨t, "http://example.org/name", text s, rfl⟩
    let G : Rdf.Graph :=
      {.typing "http://example.org/t1" "http://example.org/Thing", name "old", name "older"}
    let e := renamedThing [("name", .value (.str "old"))]
    ∃ s delete insert body,
      (single e).compileUpdate .exampleOrg = .ok [.modify delete insert body] ∧
      (∀ E : Engine, (∀ a b, E.compare .eq (text a) (text b) = some (a == b)) →
        (∀ b, E.truth (.ofBool b) = some b) →
          (∃ μ ∈ Sparql.groupSolutions E G body, μ s = some t) ∧
          name "older" ∈ Operation.run E G (.modify delete insert body)) ∧
      ¬ ∃ d ∈ e.storedData .exampleOrg, ∃ v ∈ d.2.2.itemsOrSelf,
        e.Holds .exampleOrg t d v (name "older") := by
  have hupdate (m : Mapping) (hm : m = ⟨"http://example.org/name", false⟩) :
      (single (renamedThing [("name", .value (.str "old"))])).compileUpdate .exampleOrg =
        .ok [.modify [m.triple (.var ⟨"eIri0"⟩) (.var ⟨"name0"⟩)]
          [m.triple (.var ⟨"eIri0"⟩) (.literal (.plain "n"))]
          (updateGroup [exactType (.var ⟨"eIri0"⟩) "http://example.org/Thing"]
            [m.triple (.var ⟨"eIri0"⟩) (.var ⟨"name0"⟩)]
            [.eq (.var ⟨"name0"⟩) (.literal (.plain "old"))])] := by
    subst hm
    rfl
  intro t text name G e
  let m : Mapping := ⟨"http://example.org/name", false⟩
  let s : Var := ⟨"eIri0"⟩
  let x : Var := ⟨"name0"⟩
  let test : Expression := .eq (.var x) (.literal (.plain "old"))
  let class_ : Option String := some "http://example.org/Thing"
  refine ⟨s, _, _, _, hupdate m rfl, ?_, ?_⟩
  · intro E hcompare htruth
    have htest : ∀ (μ : Solution) (a : String), μ x = some (text a) →
        (test.IsTrue E G μ ↔ a = "old") := by
      intro μ a ha
      simp [test, Expression.IsTrue, Expression.eq, Expression.value?, ha, Sparql.Literal.denoted,
        hcompare a "old", htruth, text]
    constructor
    · have hmatched : ∃ μ ∈ Sparql.extendAll E G
            (([(m, x)].map fun p => p.1.triple (.var s) (.var p.2)).map .optionalTriple)
            (Sparql.blockSolutions G (class_.toList.map (exactType (.var s)))),
          μ s = some t := by
        -- read backwards, the class has the thing as its value
        let instance_ : Mapping := ⟨Vocabulary.rdfType, true⟩
        have hβ := Covers.single_mem_blockSolutions (G := G) (m := instance_)
          (S := "http://example.org/Thing") (.inl rfl) ⟨rfl, rfl⟩ s
        obtain ⟨μ, hμ, hkept⟩ := Sparql.exists_mem_leftJoin hβ
        refine ⟨μ, ?_, hkept s t (if_pos rfl)⟩
        exact (Sparql.extend_optionalTriple (E := E) _ _).superset hμ
      obtain ⟨μ, hμ, hs⟩ := hmatched
      have hexchanges : Exchanges G s [(m, x)] _ :=
        exchanges_updateGroup (E := E) class_ (by decide)
      have hswapped := hexchanges.swap μ hμ t hs _ (.head _) (name "old") (.inr (.inl rfl))
        ⟨rfl, rfl⟩
      refine ⟨_, mem_groupSolutions_updateGroup.mpr ⟨hswapped, ?_⟩, ?_⟩
      · intro g hg
        obtain rfl := List.mem_singleton.mp hg
        exact (htest _ "old" (Function.update_self _ _ _)).mpr rfl
      · rw [Function.update_of_ne (by decide), hs]
    · refine .inl ⟨.inr (.inr rfl), ?_⟩
      rintro ⟨μ, hμ, u, hu, hdenotes⟩
      obtain rfl := List.mem_singleton.mp hu
      have hother := (Mapping.denotes_triple.mp hdenotes).2.2
      have hpasses := (mem_groupSolutions_updateGroup.mp hμ).2 test (.head _)
      exact absurd ((htest μ "older" hother).mp hpasses) (by decide)
  · rintro ⟨d, hd, v, hv, -, hvalue⟩
    obtain rfl := List.mem_singleton.mp hd
    obtain rfl := List.mem_singleton.mp hv
    exact absurd hvalue (by decide)

end Collection

end ObjectGraph
