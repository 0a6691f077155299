import Mathlib.Data.List.Perm.Basic
import ObjectGraph.Proofs.Compile.Subselects
import ObjectGraph.Proofs.Constraint.Building

/-!
# Where a CONSTRUCT puts its entities

An entity contributes triples, tests and computed values (`Fragment.clauses`).  A CONSTRUCT
has them in one of three places.  An entity with an order or a cut has a sub-select of its
own with all of them, an entity that a service answers has a block of its own, and those of
all others stand in the open (`Collection.compileConstruct_shapes`).  There are no other
sub-selects, and the query has neither order nor cut outside of them.

A service comes first: an entity that is answered by one has no sub-select, and an order or
a cut of it is nowhere in the query.
-/

namespace ObjectGraph

open Sparql (Var Triple Expression Pattern Select groupScope)

/-! ## Clauses -/

/-- What an entity contributes to a query: a triple that is there, one that may be missing, a
test or a computed value. -/
inductive Clause where
  | triple (t : Triple)
  | optional (t : Triple)
  | filter (condition : Expression)
  | bind (value : Expression) (v : Var)

/-- All that an entity contributes. -/
def Fragment.clauses (f : Fragment) : List Clause :=
  f.mandatory.map .triple ++ f.optional.map .optional ++ f.filters.map .filter ++
    f.binds.map fun b => .bind b.1 b.2

namespace Sparql

/-- The clauses of a pattern, apart from those that stand in a block of their own. -/
def Pattern.clauses : Pattern → List Clause
  | .triples ts => ts.map .triple
  | .optional [.triples [t]] => [.optional t]
  | .filter condition => [.filter condition]
  | .bind value v => [.bind value v]
  | _ => []

/-- The clauses of a group that stand in the open. -/
def openClauses (g : List Pattern) : List Clause :=
  g.flatMap Pattern.clauses

mutual

/-- The sub-selects in a pattern, at any depth. -/
def Pattern.subselects : Pattern → List Select
  | .triples _ | .filter _ | .bind _ _ => []
  | .optional g | .group g | .service _ _ g => groupSubselects g
  | .subselect q => q :: q.inner

/-- The sub-selects in a group. -/
def groupSubselects : List Pattern → List Select
  | [] => []
  | p :: rest => p.subselects ++ groupSubselects rest

/-- The sub-selects within a SELECT. -/
def Select.inner : Select → List Select
  | ⟨_, _, body, _⟩ => groupSubselects body

end

/-- The blocks of a group that a service answers. -/
def services (g : List Pattern) : List (String × List Pattern) :=
  g.filterMap fun
    | .service endpoint _ body => some (endpoint, body)
    | _ => none

/-- The sub-selects of a group are those of its patterns. -/
theorem groupSubselects_eq_flatMap (g : List Pattern) :
    groupSubselects g = g.flatMap Pattern.subselects := by
  induction g with
  | nil => rfl
  | cons p rest ih => rw [groupSubselects, List.flatMap_cons, ih]

/-- Groups that are joined have the sub-selects of both. -/
theorem groupSubselects_append (g g' : List Pattern) :
    groupSubselects (g ++ g') = groupSubselects g ++ groupSubselects g' := by
  simp only [groupSubselects_eq_flatMap, List.flatMap_append]

theorem openClauses_append (g g' : List Pattern) :
    openClauses (g ++ g') = openClauses g ++ openClauses g' :=
  List.flatMap_append

theorem services_append (g g' : List Pattern) : services (g ++ g') = services g ++ services g' :=
  List.filterMap_append

/-- A pattern stands in the open: it is a block of triples, or has a clause of another kind. -/
def Pattern.IsOpen : Pattern → Prop
  | .triples _ | .optional [.triples [_]] | .filter _ | .bind _ _ => True
  | _ => False

/-- What stands in the open is neither a sub-select nor a block of a service. -/
theorem blocks_of_isOpen {g : List Pattern} (h : ∀ p ∈ g, p.IsOpen) :
    groupSubselects g = [] ∧ services g = [] := by
  have hnone : ∀ p : Pattern, p.IsOpen → p.subselects = [] ∧ services [p] = [] := by
    intro p hp
    unfold Pattern.IsOpen at hp
    split at hp
    · exact ⟨rfl, rfl⟩
    · exact ⟨rfl, rfl⟩
    · exact ⟨rfl, rfl⟩
    · exact ⟨rfl, rfl⟩
    · exact hp.elim
  induction g with
  | nil => exact ⟨rfl, rfl⟩
  | cons p rest ih =>
      obtain ⟨hp, hrest⟩ := List.forall_mem_cons.mp h
      obtain ⟨hsubselects, hservices⟩ := hnone p hp
      obtain ⟨hsubselects', hservices'⟩ := ih hrest
      refine ⟨?_, ?_⟩
      · rw [groupSubselects, hsubselects, hsubselects', List.append_nil]
      · rw [← List.singleton_append, services_append, hservices, hservices', List.append_nil]

/-- Sub-selects have no clause in the open, and none is the block of a service. -/
theorem blocks_of_subselects {g : List Pattern} (h : ∀ p ∈ g, ∃ q, p = .subselect q) :
    openClauses g = [] ∧ services g = [] := by
  refine ⟨List.flatMap_eq_nil_iff.mpr fun p hp => ?_, List.filterMap_eq_nil_iff.mpr fun p hp => ?_⟩
  · obtain ⟨q, rfl⟩ := h p hp
    rfl
  · obtain ⟨q, rfl⟩ := h p hp
    rfl

/-- Sub-selects without others in them are the sub-selects of their group. -/
theorem forall₂_groupSubselects {α : Type} {R : α → Select → Prop} {xs : List α}
    {g : List Pattern}
    (h : List.Forall₂ (fun x p => ∃ q, p = .subselect q ∧ q.inner = [] ∧ R x q) xs g) :
    List.Forall₂ R xs (groupSubselects g) := by
  induction h with
  | nil => exact .nil
  | cons hfirst _ ih =>
      obtain ⟨q, rfl, hinner, hR⟩ := hfirst
      rw [groupSubselects, Pattern.subselects, hinner, List.singleton_append]
      exact .cons hR ih

/-- A block of triples has them as clauses, and an empty one is left out. -/
theorem openClauses_block (ts : List Triple) :
    openClauses (if ts.isEmpty then [] else [.triples ts]) = ts.map .triple := by
  cases ts <;> simp [openClauses, Pattern.clauses]

/-- A block of triples stands in the open. -/
theorem isOpen_block (ts : List Triple) :
    ∀ p ∈ (if ts.isEmpty then [] else [Pattern.triples ts]), p.IsOpen := by
  cases ts <;> simp [Pattern.IsOpen]

/-- The open clauses of several groups are those of each. -/
theorem openClauses_flatMap {α : Type} (l : List α) (g : α → List Pattern) :
    openClauses (l.flatMap g) = l.flatMap fun x => openClauses (g x) :=
  List.flatMap_assoc

end Sparql

open Sparql (openClauses groupSubselects services)

namespace Fragment

variable (f : Fragment)

/-- What may be missing makes a clause for each triple. -/
theorem openClauses_optionalPatterns :
    openClauses f.optionalPatterns = f.optional.map .optional := by
  rw [openClauses, optionalPatterns, List.flatMap_map, List.map_eq_flatMap]
  rfl

theorem openClauses_filterPatterns : openClauses f.filterPatterns = f.filters.map .filter := by
  rw [openClauses, filterPatterns, List.flatMap_map, List.map_eq_flatMap]
  rfl

theorem openClauses_bindPatterns :
    openClauses f.bindPatterns = f.binds.map fun b => .bind b.1 b.2 := by
  rw [openClauses, bindPatterns, List.flatMap_map, List.map_eq_flatMap]
  rfl

/-- The patterns of a fragment have its clauses in the open, and no others. -/
theorem openClauses_patterns : openClauses f.patterns = f.clauses := by
  simp only [patterns, Sparql.openClauses_append, Sparql.openClauses_block,
    openClauses_optionalPatterns, openClauses_filterPatterns, openClauses_bindPatterns, clauses]

/-- All patterns behind the first block stand in the open. -/
theorem isOpen_rest :
    ∀ p ∈ f.optionalPatterns ++ f.filterPatterns ++ f.bindPatterns, p.IsOpen := by
  intro p hp
  simp only [optionalPatterns, filterPatterns, bindPatterns, List.mem_append, List.mem_map] at hp
  rcases hp with (⟨t, -, rfl⟩ | ⟨g, -, rfl⟩) | ⟨b, -, rfl⟩ <;> trivial

/-- All patterns of a fragment stand in the open. -/
theorem isOpen_patterns : ∀ p ∈ f.patterns, p.IsOpen := by
  intro p hp
  rw [patterns, List.append_assoc, List.append_assoc, List.mem_append] at hp
  rcases hp with hp | hp
  · exact Sparql.isOpen_block _ p hp
  · exact f.isOpen_rest p (by simpa only [List.append_assoc] using hp)

end Fragment

namespace Collection

/-- The clauses of fragments that are merged stand in the open, apart from those that a service
answers. -/
theorem openClauses_mergePatterns (fragments : List Fragment) :
    (openClauses (mergePatterns fragments)).Perm
      ((fragments.filter (·.service.isNone)).flatMap Fragment.clauses) := by
  have hservices : openClauses (fragments.filterMap servicePattern?) = [] := by
    refine List.flatMap_eq_nil_iff.mpr fun p hp => ?_
    obtain ⟨f, -, hservice⟩ := List.mem_filterMap.mp hp
    obtain ⟨endpoint, -, rfl⟩ := Option.map_eq_some_iff.mp hservice
    rfl
  unfold mergePatterns
  simp only [Sparql.openClauses_append, Sparql.openClauses_block, hservices,
    Sparql.openClauses_flatMap, Fragment.openClauses_optionalPatterns,
    Fragment.openClauses_filterPatterns, Fragment.openClauses_bindPatterns, List.append_nil,
    List.map_flatMap]
  -- all clauses of one kind and then of the next, or all of one fragment and then of the next
  have hfirst := List.flatMap_append_perm (fragments.filter (·.service.isNone))
    (fun f => f.mandatory.map Clause.triple) fun f => f.optional.map .optional
  have hsecond := (hfirst.append_right _).trans
    (List.flatMap_append_perm _ _ fun f => f.filters.map .filter)
  exact (hsecond.append_right _).trans (List.flatMap_append_perm _ _ _)

/-- What is merged stands in the open, but for the blocks of services. -/
theorem mergePatterns_open (fragments : List Fragment) : ∃ front back,
    (∀ p ∈ front, Pattern.IsOpen p) ∧ (∀ p ∈ back, Pattern.IsOpen p) ∧
      mergePatterns fragments = front ++ fragments.filterMap servicePattern? ++ back := by
  let inPlace := fragments.filter (·.service.isNone)
  have hback : ∀ p ∈ inPlace.flatMap Fragment.optionalPatterns ++
      (inPlace.flatMap Fragment.filterPatterns ++ inPlace.flatMap Fragment.bindPatterns),
      p.IsOpen := by
    intro p hp
    have hrest : ∃ f : Fragment, p ∈ f.optionalPatterns ++ f.filterPatterns ++ f.bindPatterns := by
      simp only [List.mem_append, List.mem_flatMap] at hp ⊢
      rcases hp with ⟨f, -, hp⟩ | ⟨f, -, hp⟩ | ⟨f, -, hp⟩
      · exact ⟨f, .inl (.inl hp)⟩
      · exact ⟨f, .inl (.inr hp)⟩
      · exact ⟨f, .inr hp⟩
    obtain ⟨f, hf⟩ := hrest
    exact f.isOpen_rest p hf
  refine ⟨_, _, Sparql.isOpen_block (inPlace.flatMap (·.mandatory)), hback, ?_⟩
  rw [← List.append_assoc, ← List.append_assoc]
  rfl

/-- Merging makes no sub-select. -/
theorem groupSubselects_mergePatterns (fragments : List Fragment) :
    groupSubselects (mergePatterns fragments) = [] := by
  obtain ⟨front, back, hfront, hback, heq⟩ := mergePatterns_open fragments
  have hservices : groupSubselects (fragments.filterMap servicePattern?) = [] := by
    rw [Sparql.groupSubselects_eq_flatMap]
    refine List.flatMap_eq_nil_iff.mpr fun p hp => ?_
    obtain ⟨f, -, hservice⟩ := List.mem_filterMap.mp hp
    obtain ⟨endpoint, -, rfl⟩ := Option.map_eq_some_iff.mp hservice
    exact (Sparql.blocks_of_isOpen f.isOpen_patterns).1
  rw [heq, Sparql.groupSubselects_append, Sparql.groupSubselects_append, hservices,
    (Sparql.blocks_of_isOpen hfront).1, (Sparql.blocks_of_isOpen hback).1]
  rfl

/-- Each fragment that a service answers has a block of its own. -/
theorem services_mergePatterns (fragments : List Fragment) :
    services (mergePatterns fragments) =
      fragments.filterMap fun f => f.service.map fun endpoint => (endpoint, f.patterns) := by
  obtain ⟨front, back, hfront, hback, heq⟩ := mergePatterns_open fragments
  rw [heq, Sparql.services_append, Sparql.services_append, (Sparql.blocks_of_isOpen hfront).2,
    (Sparql.blocks_of_isOpen hback).2, List.nil_append, List.append_nil, services,
    List.filterMap_filterMap]
  congr 1
  funext f
  cases hservice : f.service <;> simp [servicePattern?, hservice]

end Collection

/-- A condition leaves the service of its entity alone. -/
theorem Draft.Restricts.service {ns : Namespaces} {config : Config} {e : Entity} {key : String}
    {c : Condition} {d d' : Draft} (h : Restricts ns config e key d c d') :
    d'.fragment.service = d.fragment.service := by
  cases h <;> rfl

/-- A fragment knows the service of its entity. -/
theorem Entity.compile_service {ns : Namespaces} {config : Config} {options : CompileOptions}
    {e : Entity} {a a' : Allocator} {f : Fragment}
    (h : e.compile ns config options a = .ok (f, a')) : f.service = e.service.map ns.expand := by
  obtain ⟨d, hd, rfl, -⟩ := compile_draft (fun d => d.fragment.service = e.service.map ns.expand)
    (fun subject b _ => by
      unfold Draft.opening Draft.addIdentity
      split <;> rfl)
    (fun _ _ hd hstep => by cases hstep <;> exact hd)
    (fun _ _ _ _ hd hstep => by cases hstep <;> exact hd)
    (fun _ _ _ _ hd hstep => hstep.service.trans hd) h
  exact hd

/-! ## The three places -/

namespace Collection

/-- The order of the entity at a place: its own, and behind that of the collection for the
root. -/
def orderAt (c : Collection) (i : Nat) (e : Entity) : List OrderKey :=
  if i = 0 then c.orderBy ++ e.orderBy else e.orderBy

/-- The limit of the entity at a place: its own, or that of the collection for the root. -/
def limitAt (c : Collection) (i : Nat) (e : Entity) : Option Nat :=
  if i = 0 then c.limit <|> e.limit else e.limit

/-- The number of results of the entity at a place to leave out. -/
def offsetAt (c : Collection) (i : Nat) (e : Entity) : Option Nat :=
  if i = 0 then c.offset <|> e.offset else e.offset

/-- Whether the entity at a place has an order or a cut. -/
def isShaped (c : Collection) (i : Nat) (e : Entity) : Bool :=
  !(c.orderAt i e).isEmpty || (c.limitAt i e).isSome || (c.offsetAt i e).isSome

/-- A sub-select has all that an entity contributes, with its order and cut, and shows all
variables of it. -/
structure Shapes (c : Collection) (i : Nat) (p : Part) (q : Select) : Prop where
  clauses : openClauses q.body = p.fragment.clauses
  limit : q.modifiers.limit = c.limitAt i p.entity
  offset : q.modifiers.offset = c.offsetAt i p.entity
  order : q.modifiers.orderBy = orderConditions [p.fragment] (c.orderAt i p.entity)
  shows : groupScope q.body ⊆ q.scope

variable {ns : Namespaces} {config : Config} {c : Collection} {p : Part} {i : Nat}

/-- An entity has modifiers of its own if it has an order or a cut at its place. -/
theorem entityModifiers?_eq (h : p.entity.index = i) : c.entityModifiers? p =
    if c.isShaped i p.entity then
      some ⟨orderConditions [p.fragment] (c.orderAt i p.entity), c.limitAt i p.entity,
        c.offsetAt i p.entity⟩
    else none := by
  subst h
  unfold entityModifiers? isShaped orderAt limitAt offsetAt
  simp only [beq_iff_eq]
  generalize (if p.entity.index = 0 then c.orderBy ++ p.entity.orderBy else p.entity.orderBy) = keys
  generalize (if p.entity.index = 0 then c.limit <|> p.entity.limit else p.entity.limit) = limit
  generalize (if p.entity.index = 0 then c.offset <|> p.entity.offset else p.entity.offset) = offset
  cases keys <;> cases limit <;> cases offset <;> rfl

/-- An entity that no service answers is moved into a sub-select if it is shaped. -/
theorem subselect?_shapes (hindex : p.entity.index = i) (hservice : p.fragment.service = none)
    (hshaped : c.isShaped i p.entity = true) :
    ∃ q, c.subselect? p = some (.subselect q) ∧ q.inner = [] ∧ c.Shapes i p q := by
  have hmodifiers := entityModifiers?_eq (c := c) hindex
  rw [if_pos hshaped] at hmodifiers
  refine ⟨_, by rw [subselect?, hservice, hmodifiers]; rfl, ?_, ?_⟩
  · exact (Sparql.blocks_of_isOpen p.fragment.isOpen_patterns).1
  · refine ⟨p.fragment.openClauses_patterns, rfl, rfl, rfl, fun v hv => ?_⟩
    exact (Sparql.mem_scope_of fun _ => Fragment.mem_boundVars.mpr).mpr hv

/-- What has neither an order nor a cut has no sub-select. -/
theorem subselect?_eq_none (hindex : p.entity.index = i)
    (h : p.fragment.service.isNone = true → c.isShaped i p.entity = false) :
    c.subselect? p = none := by
  cases hservice : p.fragment.service with
  | some s => rw [subselect?, hservice]; rfl
  | none =>
      have hmodifiers := entityModifiers?_eq (c := c) hindex
      rw [if_neg (by rw [h (by rw [hservice]; rfl)]; exact Bool.false_ne_true)] at hmodifiers
      rw [subselect?, hservice, hmodifiers]
      rfl

end Collection

/-- What is kept of a list stands beside what is made of it, if it is made of just that. -/
theorem forall₂_filter_filterMap {α β : Type} {R : α → β → Prop} {keep : α → Bool}
    {make : α → Option β} {l : List α}
    (hkeep : ∀ x ∈ l, keep x = true → ∃ y, make x = some y ∧ R x y)
    (hdrop : ∀ x ∈ l, keep x = false → make x = none) :
    List.Forall₂ R (l.filter keep) (l.filterMap make) := by
  induction l with
  | nil => exact .nil
  | cons x rest ih =>
      obtain ⟨hfirst, hrest⟩ := List.forall_mem_cons.mp hkeep
      obtain ⟨hfirst', hrest'⟩ := List.forall_mem_cons.mp hdrop
      cases hx : keep x with
      | true =>
          obtain ⟨y, hy, hR⟩ := hfirst hx
          rw [List.filter_cons_of_pos hx, List.filterMap_cons_some hy]
          exact .cons hR (ih hrest hrest')
      | false =>
          rw [List.filter_cons_of_neg (by simp [hx]), List.filterMap_cons_none (hfirst' hx)]
          exact ih hrest hrest'

namespace Collection

variable {ns : Namespaces} {config : Config} {c : Collection}

/-- A part at its place knows its number and its service. -/
def PlacedAt (ns : Namespaces) (x : Part × Nat) : Prop :=
  x.1.entity.index = x.2 ∧ x.1.fragment.service = x.1.entity.service.map ns.expand

/-- Whether the entity at a place has a sub-select of its own. -/
def hasSubselect (c : Collection) (x : Part × Nat) : Bool :=
  x.1.entity.service.isNone && c.isShaped x.2 x.1.entity

/-- Whether the clauses of the entity at a place stand in the open. -/
def isInOpen (c : Collection) (x : Part × Nat) : Bool :=
  x.1.entity.service.isNone && !c.isShaped x.2 x.1.entity

/-- The parts of a CONSTRUCT query stand at the places of their entities. -/
theorem placedAt_of_construct (hplaces : c.Numbered) {plan : ConstructPlan}
    (h : c.compileConstruct ns config = .ok plan) : ∀ x ∈ plan.parts.zipIdx, PlacedAt ns x := by
  have hparts := compileParts_of_construct h
  have hentities : plan.parts.map (·.entity) = c.entities := Entity.compileEach_entities hparts
  rintro ⟨p, i⟩ hx
  have hp : plan.parts[i]? = some p := List.mem_zipIdx_iff_getElem?.mp hx
  obtain ⟨a, a', hcompile⟩ := Entity.compileEach_part hparts p (List.mem_of_getElem? hp)
  refine ⟨hplaces i p.entity ?_, Entity.compile_service hcompile⟩
  rw [← hentities, List.getElem?_map, hp]
  rfl

/-- An entity with an order or a cut has a sub-select of its shape. -/
theorem subselect?_of_hasSubselect {x : Part × Nat} (hx : PlacedAt ns x)
    (h : c.hasSubselect x = true) :
    ∃ q, c.subselect? x.1 = some (.subselect q) ∧ q.inner = [] ∧ c.Shapes x.2 x.1 q := by
  obtain ⟨hservice, hshaped⟩ := Bool.and_eq_true_iff.mp h
  refine subselect?_shapes hx.1 ?_ hshaped
  rw [hx.2, Option.isNone_iff_eq_none.mp hservice]
  rfl

/-- All other entities have no sub-select. -/
theorem subselect?_of_not_hasSubselect {x : Part × Nat} (hx : PlacedAt ns x)
    (h : c.hasSubselect x = false) : c.subselect? x.1 = none := by
  refine subselect?_eq_none hx.1 fun hservice => ?_
  rw [hx.2, Option.isNone_map] at hservice
  rwa [hasSubselect, hservice, Bool.true_and] at h

/-- The sub-selects are those of the entities that have one. -/
theorem forall₂_subselects {l : List (Part × Nat)} (hl : ∀ x ∈ l, PlacedAt ns x) :
    List.Forall₂ (fun x q => c.Shapes x.2 x.1 q) (l.filter c.hasSubselect)
      (groupSubselects (l.filterMap fun x => c.subselect? x.1)) := by
  have hpatterns : List.Forall₂
      (fun x pattern => ∃ q, pattern = .subselect q ∧ q.inner = [] ∧ c.Shapes x.2 x.1 q)
      (l.filter c.hasSubselect) (l.filterMap fun x => c.subselect? x.1) := by
    refine forall₂_filter_filterMap (fun x hx hhas => ?_) fun x hx hhas =>
      subselect?_of_not_hasSubselect (hl x hx) hhas
    obtain ⟨q, hq, hinner, hshapes⟩ := subselect?_of_hasSubselect (hl x hx) hhas
    exact ⟨_, hq, q, rfl, hinner, hshapes⟩
  exact Sparql.forall₂_groupSubselects hpatterns

/-- What stands in the open are the clauses of the entities without a sub-select that no service
answers. -/
theorem openClauses_flat {l : List (Part × Nat)} (hl : ∀ x ∈ l, PlacedAt ns x) :
    let flat := (l.map Prod.fst).filter fun p => (c.subselect? p).isNone
    (openClauses (mergePatterns (flat.map (·.fragment)))).Perm
      ((l.filter c.isInOpen).flatMap fun x => x.1.fragment.clauses) := by
  intro flat
  have hopen : ∀ x ∈ l, (x.1.fragment.service.isNone && (c.subselect? x.1).isNone) =
      c.isInOpen x := by
    intro x hx
    rw [(hl x hx).2, Option.isNone_map, isInOpen]
    cases hservice : x.1.entity.service.isNone with
    | false => rfl
    | true =>
        cases hhas : c.hasSubselect x with
        | true =>
            obtain ⟨q, hq, -⟩ := subselect?_of_hasSubselect (hl x hx) hhas
            rw [hasSubselect, hservice, Bool.true_and] at hhas
            rw [hq, hhas]
            rfl
        | false =>
            rw [subselect?_of_not_hasSubselect (hl x hx) hhas]
            rw [hasSubselect, hservice, Bool.true_and] at hhas
            rw [hhas]
            rfl
  have hflat : (flat.map (·.fragment)).filter (·.service.isNone) =
      (l.filter c.isInOpen).map (·.1.fragment) := by
    rw [List.filter_map, List.filter_filter, List.filter_map, List.map_map,
      ← List.filter_congr hopen]
    rfl
  refine (openClauses_mergePatterns _).trans ?_
  rw [hflat, List.flatMap_map]

/-- The blocks of services are those of the entities that have one. -/
theorem forall₂_services {parts : List Part}
    (hparts : ∀ p ∈ parts, p.fragment.service = p.entity.service.map ns.expand) :
    let flat := parts.filter fun p => (c.subselect? p).isNone
    List.Forall₂ (fun p block => p.entity.service.map ns.expand = some block.1 ∧
        openClauses block.2 = p.fragment.clauses ∧ groupSubselects block.2 = [])
      (parts.filter (·.entity.service.isSome))
      (services (mergePatterns (flat.map (·.fragment)))) := by
  intro flat
  rw [services_mergePatterns, List.filterMap_map, List.filterMap_filter]
  refine forall₂_filter_filterMap (fun p hp hservice => ?_) fun p hp hservice => ?_
  · obtain ⟨s, hs⟩ := Option.isSome_iff_exists.mp hservice
    have hfragment : p.fragment.service = some (ns.expand s) := by
      rw [hparts p hp, hs]
      rfl
    have hnone : c.subselect? p = none := by
      rw [subselect?, hfragment]
      rfl
    refine ⟨(ns.expand s, p.fragment.patterns), ?_, ?_, ?_, ?_⟩
    · simp [hnone, hfragment]
    · rw [hs]
      rfl
    · exact p.fragment.openClauses_patterns
    · exact (Sparql.blocks_of_isOpen p.fragment.isOpen_patterns).1
  · have hnone : p.entity.service = none := by simpa using hservice
    have hfragment : p.fragment.service = none := by
      rw [hparts p hp, hnone]
      rfl
    simp [hfragment]

/-- **Where a CONSTRUCT puts its entities.**  Each entity with an order or a cut that no service
answers has one sub-select, with its order and cut and with all that the entity contributes;
there are no other sub-selects, at any depth.  What the other entities contribute stands in the
open once, or in the block of the service that answers them.  The query has neither order nor
cut of its own. -/
theorem compileConstruct_shapes (hplaces : c.Numbered) {plan : ConstructPlan}
    (h : c.compileConstruct ns config = .ok plan) :
    plan.parts.map (·.entity) = c.entities ∧ plan.query.modifiers = .none ∧
      List.Forall₂ (fun x q => c.Shapes x.2 x.1 q) (plan.parts.zipIdx.filter c.hasSubselect)
        (groupSubselects plan.query.body) ∧
      (openClauses plan.query.body).Perm
        ((plan.parts.zipIdx.filter c.isInOpen).flatMap fun x => x.1.fragment.clauses) ∧
      List.Forall₂ (fun p block => p.entity.service.map ns.expand = some block.1 ∧
          openClauses block.2 = p.fragment.clauses ∧ groupSubselects block.2 = [])
        (plan.parts.filter (·.entity.service.isSome)) (services plan.query.body) := by
  have hplaced := placedAt_of_construct hplaces h
  have hentities : plan.parts.map (·.entity) = c.entities :=
    Entity.compileEach_entities (compileParts_of_construct h)
  obtain ⟨parts, -, rfl⟩ := compileConstruct_cases h
  dsimp only at hplaced hentities ⊢
  have hfst : parts.zipIdx.map Prod.fst = parts := List.zipIdx_map_fst 0 parts
  have hmoved : parts.filterMap c.subselect? =
      parts.zipIdx.filterMap fun x => c.subselect? x.1 := by
    conv_lhs => rw [← hfst]
    rw [List.filterMap_map]
    rfl
  have hsubselects : ∀ pattern ∈ parts.filterMap c.subselect?, ∃ q, pattern = .subselect q := by
    intro pattern hpattern
    obtain ⟨p, -, hp⟩ := List.mem_filterMap.mp hpattern
    obtain ⟨distinct, modifiers, rfl⟩ := subselect?_cases hp
    exact ⟨_, rfl⟩
  refine ⟨hentities, rfl, ?_, ?_, ?_⟩
  · rw [Sparql.groupSubselects_append, groupSubselects_mergePatterns, List.append_nil, hmoved]
    exact forall₂_subselects hplaced
  · rw [Sparql.openClauses_append, (Sparql.blocks_of_subselects hsubselects).1, List.nil_append]
    have hflat := openClauses_flat (c := c) hplaced
    rwa [hfst] at hflat
  · rw [Sparql.services_append, (Sparql.blocks_of_subselects hsubselects).2, List.nil_append]
    refine forall₂_services fun p hp => ?_
    obtain ⟨i, hi⟩ := List.getElem?_of_mem hp
    exact (hplaced (p, i) (List.mem_zipIdx_iff_getElem?.mpr hi)).2

/-- Ten things at most, though their entity asks for five, with all places and the offers that a
service knows. -/
def tenThings : Collection where
  entities :=
    [{ index := 0
       schema :=
         { targetClass := some "ex:Thing"
           context := [("code", .str "ex:code")]
           properties := [("code", { type := some "string" })] }
       conditions := [("code", .value (.str "x"))]
       limit := some 5 },
     { index := 1, schema := { targetClass := some "ex:Place" } },
     { index := 2
       schema := { targetClass := some "ex:Offer" }
       service := some "http://remote.example.org/sparql" }]
  limit := some 10

/-- The things have the one sub-select, with the limit of the collection, and places stand in
the open. -/
theorem compileConstruct_shapes_tenThings :
    ∃ plan p q r, tenThings.compileConstruct .exampleOrg {} = .ok plan ∧
      plan.parts[0]? = some p ∧ groupSubselects plan.query.body = [q] ∧
      openClauses q.body = p.fragment.clauses ∧ q.modifiers.limit = some 10 ∧
      plan.parts[1]? = some r ∧ (openClauses plan.query.body).Perm r.fragment.clauses := by
  have hplaces : tenThings.Numbered := by
    rintro (_ | _ | _ | i) e he <;> cases he <;> rfl
  obtain ⟨plan, p, r, hplan, hp, hr, hmoved, hopen⟩ :
      ∃ plan p r, tenThings.compileConstruct .exampleOrg {} = .ok plan ∧
        plan.parts[0]? = some p ∧ plan.parts[1]? = some r ∧
        plan.parts.zipIdx.filter tenThings.hasSubselect = [(p, 0)] ∧
        plan.parts.zipIdx.filter tenThings.isInOpen = [(r, 1)] :=
    ⟨_, _, _, rfl, rfl, rfl, rfl, rfl⟩
  obtain ⟨-, -, hsubselects, hclauses, -⟩ := compileConstruct_shapes hplaces hplan
  rw [hmoved] at hsubselects
  obtain ⟨q, qs, hq, hrest, hqs⟩ := List.forall₂_cons_left_iff.mp hsubselects
  obtain rfl := List.forall₂_nil_left_iff.mp hrest
  rw [hopen, List.flatMap_singleton] at hclauses
  exact ⟨plan, p, q, r, hplan, hp, hqs, hq.clauses, hq.limit, hr, hclauses⟩

/-- Ten things at most, of those that a service knows. -/
def tenRemoteThings : Collection where
  entities :=
    [{ index := 0
       schema := { targetClass := some "ex:Thing" }
       service := some "http://remote.example.org/sparql" }]
  limit := some 10

/-- The limit of things that a service answers is nowhere in the query. -/
theorem service_loses_limit :
    let v : Var := ⟨"eIri0"⟩
    tenRemoteThings.Numbered ∧
      (∃ e, tenRemoteThings.entities[0]? = some e ∧ tenRemoteThings.limitAt 0 e = some 10) ∧
      ∃ plan, tenRemoteThings.compileConstruct .exampleOrg {} = .ok plan ∧
        plan.query.body = [.service "http://remote.example.org/sparql" false
          [.triples [exactType (.var v) "http://example.org/Thing"]]] ∧
        groupSubselects plan.query.body = [] ∧ plan.query.modifiers = .none := by
  refine ⟨?_, ⟨_, rfl, rfl⟩, _, rfl, rfl, rfl, rfl⟩
  rintro (_ | i) e he <;> cases he
  rfl

end Collection

end ObjectGraph
