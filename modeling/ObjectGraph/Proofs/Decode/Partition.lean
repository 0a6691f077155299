import ObjectGraph.Proofs.Decode.Links
import ObjectGraph.Proofs.Decode.Reading

/-!
# Who takes which nodes

Entities that resolve their types share out the typed nodes that the others leave, one after
the other.  `Shared` says how far this has come: which entities have had their turn, that
what is taken is exactly what stands in the groups, and that the group of an entity that has
had its turn meets no other group.  A turn keeps this up (`Shared.claim`), because an entity
takes nothing that is taken, and its own group was empty before.

What is left after the last turn are typed nodes that nobody could take, since each of the
entities asks for a link that they do not carry (`groupNodes_partition`).
-/

namespace ObjectGraph

open Sparql (Term)

namespace Decode

variable {ns : Namespaces} {nodes : NodeMap} {parts : List Part} {p : Part} {j : Nat}

/-- A node carries a link: it has a value of the property, or some node refers to it. -/
def Link.Holds (nodes : NodeMap) (n : Node) : Link → Prop
  | .subject predicate => n.values predicate ≠ []
  | .object predicate =>
    ∃ other ∈ nodes, ∃ v ∈ other.values predicate, v.refId? = some n.id

theorem Link.isCarriedBy_iff {n : Node} {l : Link} :
    l.isCarriedBy nodes n = true ↔ l.Holds nodes n := by
  cases l with
  | subject predicate => simp [isCarriedBy, Holds]
  | object predicate => simp [isCarriedBy, Holds, Node.refersTo]

/-! ## Turns -/

/-- An entity whose turn it is, with the links it asks for, may have a node. -/
def Suits (nodes : NodeMap) (links : List Link) (n : Node) : Prop :=
  n.types ≠ [] ∧ ∀ l ∈ links, l.Holds nodes n

/-- The nodes that an entity takes in its turn. -/
def claimed (nodes : NodeMap) (taken : List String) (links : List Link) : List Node :=
  nodes.filter fun n =>
    !n.types.isEmpty && !taken.contains n.id && links.all (·.isCarriedBy nodes n)

theorem mem_claimed {taken : List String} {links : List Link} {n : Node} :
    n ∈ claimed nodes taken links ↔ n ∈ nodes ∧ n.id ∉ taken ∧ Suits nodes links n := by
  simp [claimed, Suits, Link.isCarriedBy_iff, and_assoc, and_left_comm]

/-- How far the nodes are shared out after the turns of some entities. -/
structure Shared (nodes : NodeMap) (direct : List (List Node)) (done : List (Nat × List Link))
    (state : List String × List (List Node)) : Prop where
  taken_iff : ∀ id, id ∈ state.1 ↔
    ∃ (i : Nat) (g : List Node), state.2[i]? = some g ∧ ∃ n ∈ g, n.id = id
  untouched : ∀ i, i ∉ done.map (·.1) → state.2[i]? = direct[i]?
  sublist : ∀ g ∈ state.2, g.Sublist nodes
  suits : ∀ e ∈ done, ∀ g : List Node, state.2[e.1]? = some g → ∀ n ∈ g, Suits nodes e.2 n
  apart : ∀ e ∈ done, ∀ i ≠ e.1, ∀ g g' : List Node,
    state.2[e.1]? = some g → state.2[i]? = some g' → ∀ n ∈ g, ∀ n' ∈ g', n.id ≠ n'.id
  complete : ∀ e ∈ done, ∀ n ∈ nodes, Suits nodes e.2 n → n.id ∈ state.1

namespace Shared

variable {direct : List (List Node)} {done : List (Nat × List Link)}
  {state : List String × List (List Node)}

/-- Before the first turn the nodes of the other entities are taken. -/
theorem start (hsublist : ∀ g ∈ direct, g.Sublist nodes) :
    Shared nodes direct [] (direct.flatMap fun g => g.map (·.id), direct) where
  taken_iff id := by
    simp only [List.mem_flatMap, List.mem_map, List.mem_iff_getElem? (l := direct)]
    exact ⟨fun ⟨g, ⟨i, hi⟩, hn⟩ => ⟨i, g, hi, hn⟩, fun ⟨i, g, hi, hn⟩ => ⟨g, ⟨i, hi⟩, hn⟩⟩
  untouched _ _ := rfl
  sublist := hsublist
  suits := nofun
  apart := nofun
  complete := nofun

/-! ### One turn -/

section Claim

variable {links : List Link}

/-- A turn puts what the entity takes in the place of its empty group. -/
theorem getElem?_claim (hempty : state.2[j]? = some []) (i : Nat) :
    (claim nodes state (j, links)).2[i]? =
      if i = j then some (claimed nodes state.1 links) else state.2[i]? := by
  obtain ⟨hlength, -⟩ := List.getElem?_eq_some_iff.mp hempty
  show (state.2.set j (claimed nodes state.1 links))[i]? = _
  rw [List.getElem?_set]
  by_cases hij : i = j
  · subst hij
    simp [hlength]
  · simp [hij, Ne.symm hij]

/-- A turn adds what the entity takes to what is taken. -/
theorem mem_taken_claim {id : String} : id ∈ (claim nodes state (j, links)).1 ↔
    id ∈ state.1 ∨ ∃ n ∈ claimed nodes state.1 links, n.id = id := by
  show id ∈ state.1 ++ (claimed nodes state.1 links).map (·.id) ↔ _
  rw [List.mem_append, List.mem_map]

/-- The group of the entity whose turn it is was empty, since it has not had one. -/
theorem getElem?_of_new (h : Shared nodes direct done state) (hnew : j ∉ done.map (·.1))
    (hempty : direct[j]? = some []) : state.2[j]? = some [] :=
  (h.untouched j hnew).trans hempty

/-- Those that have had their turn are not the one whose turn it is. -/
theorem ne_of_new (hnew : j ∉ done.map (·.1)) {e : Nat × List Link} (he : e ∈ done) : e.1 ≠ j :=
  fun heq => hnew (heq ▸ List.mem_map_of_mem (f := (·.1)) he)

/-- Every group after a turn is what the entity takes, in its place, or a group as it was. -/
theorem getElem?_claim_cases (hempty : state.2[j]? = some []) {i : Nat} {g : List Node}
    (hg : (claim nodes state (j, links)).2[i]? = some g) :
    (i = j ∧ g = claimed nodes state.1 links) ∨ (i ≠ j ∧ state.2[i]? = some g) := by
  rw [getElem?_claim hempty] at hg
  split at hg
  next hij => exact .inl ⟨hij, (Option.some.inj hg).symm⟩
  next hij => exact .inr ⟨hij, hg⟩

/-- What is taken after a turn is still what stands in the groups. -/
theorem claim_taken_iff (h : Shared nodes direct done state) (hempty : state.2[j]? = some [])
    (id : String) : id ∈ (claim nodes state (j, links)).1 ↔
      ∃ (i : Nat) (g : List Node),
        (claim nodes state (j, links)).2[i]? = some g ∧ ∃ n ∈ g, n.id = id := by
  rw [mem_taken_claim, h.taken_iff]
  constructor
  · rintro (⟨i, g, hg, n, hn, rfl⟩ | hn)
    · refine ⟨i, g, ?_, n, hn, rfl⟩
      rw [getElem?_claim hempty, if_neg ?_, hg]
      rintro rfl
      -- the group at this place was empty
      rw [hempty] at hg
      cases hg
      cases hn
    · exact ⟨j, _, by rw [getElem?_claim hempty, if_pos rfl], hn⟩
  · rintro ⟨i, g, hg, hn⟩
    obtain ⟨-, rfl⟩ | ⟨-, hold⟩ := getElem?_claim_cases hempty hg
    · exact .inr hn
    · exact .inl ⟨i, g, hold, hn⟩

/-- A turn leaves the groups of those alone that have not had one. -/
theorem claim_untouched (h : Shared nodes direct done state) (hempty : state.2[j]? = some [])
    {i : Nat} (hi : i ∉ (done ++ [(j, links)]).map (·.1)) :
    (claim nodes state (j, links)).2[i]? = direct[i]? := by
  simp only [List.map_append, List.mem_append, not_or, List.map_cons, List.map_nil,
    List.mem_singleton] at hi
  rw [getElem?_claim hempty, if_neg hi.2]
  exact h.untouched i hi.1

/-- What an entity takes it takes in the order of the nodes. -/
theorem claim_sublist (h : Shared nodes direct done state) (hempty : state.2[j]? = some [])
    {g : List Node} (hg : g ∈ (claim nodes state (j, links)).2) : g.Sublist nodes := by
  obtain ⟨i, hi⟩ := List.mem_iff_getElem?.mp hg
  obtain ⟨-, rfl⟩ | ⟨-, hold⟩ := getElem?_claim_cases hempty hi
  · exact List.filter_sublist
  · exact h.sublist g (List.mem_of_getElem? hold)

/-- What an entity has taken may be its own, also after a later turn. -/
theorem claim_suits (h : Shared nodes direct done state) (hnew : j ∉ done.map (·.1))
    (hempty : state.2[j]? = some []) {e : Nat × List Link} (he : e ∈ done ++ [(j, links)])
    {g : List Node} (hg : (claim nodes state (j, links)).2[e.1]? = some g) {n : Node}
    (hn : n ∈ g) : Suits nodes e.2 n := by
  rcases List.mem_append.mp he with he | he
  · obtain ⟨heq, -⟩ | ⟨-, hold⟩ := getElem?_claim_cases hempty hg
    · exact (ne_of_new hnew he heq).elim
    · exact h.suits e he g hold n hn
  · obtain rfl := List.mem_singleton.mp he
    obtain ⟨-, rfl⟩ | ⟨hne, -⟩ := getElem?_claim_cases hempty hg
    · exact (mem_claimed.mp hn).2.2
    · exact (hne rfl).elim

/-- An entity takes nothing that stands in a group. -/
theorem claimed_apart (h : Shared nodes direct done state) {i : Nat} {g : List Node}
    (hg : state.2[i]? = some g) {n n' : Node} (hn : n ∈ claimed nodes state.1 links)
    (hn' : n' ∈ g) : n.id ≠ n'.id :=
  fun heq => (mem_claimed.mp hn).2.1 ((h.taken_iff n.id).mpr ⟨i, g, hg, n', hn', heq.symm⟩)

/-- The groups of those that have had a turn meet no other group: of two groups at least one
was there before the turn, and the other is new or was apart from it. -/
theorem claim_apart (h : Shared nodes direct done state) (hempty : state.2[j]? = some [])
    {e : Nat × List Link} (he : e ∈ done ++ [(j, links)]) {i : Nat} (hi : i ≠ e.1)
    {g g' : List Node}
    (hg : (claim nodes state (j, links)).2[e.1]? = some g)
    (hg' : (claim nodes state (j, links)).2[i]? = some g') {n n' : Node} (hn : n ∈ g)
    (hn' : n' ∈ g') : n.id ≠ n'.id := by
  obtain ⟨heq, rfl⟩ | ⟨hne, hold⟩ := getElem?_claim_cases hempty hg <;>
    obtain ⟨heq', rfl⟩ | ⟨hne', hold'⟩ := getElem?_claim_cases hempty hg'
  · exact (hi (heq'.trans heq.symm)).elim
  · exact claimed_apart h hold' hn hn'
  · exact (claimed_apart h hold hn' hn).symm
  · rcases List.mem_append.mp he with he | he
    · exact h.apart e he i hi g g' hold hold' n hn n' hn'
    · exact (hne (congrArg Prod.fst (List.mem_singleton.mp he))).elim

/-- What an entity may have is taken once it has had its turn, by itself if not before. -/
theorem claim_complete (h : Shared nodes direct done state) {e : Nat × List Link}
    (he : e ∈ done ++ [(j, links)]) {n : Node} (hn : n ∈ nodes) (hsuits : Suits nodes e.2 n) :
    n.id ∈ (claim nodes state (j, links)).1 := by
  rw [mem_taken_claim]
  rcases List.mem_append.mp he with he | he
  · exact .inl (h.complete e he n hn hsuits)
  · obtain rfl := List.mem_singleton.mp he
    by_cases hmem : n.id ∈ state.1
    · exact .inl hmem
    · exact .inr ⟨n, mem_claimed.mpr ⟨hn, hmem, hsuits⟩, rfl⟩

/-- **A turn** of an entity that has not had one keeps the nodes shared out. -/
theorem claim (h : Shared nodes direct done state) (hnew : j ∉ done.map (·.1))
    (hdirect : direct[j]? = some []) :
    Shared nodes direct (done ++ [(j, links)]) (Decode.claim nodes state (j, links)) :=
  have hempty := h.getElem?_of_new hnew hdirect
  { taken_iff := h.claim_taken_iff hempty
    untouched := fun _ hi => h.claim_untouched hempty hi
    sublist := fun _ hg => h.claim_sublist hempty hg
    suits := fun _ he _ hg _ hn => h.claim_suits hnew hempty he hg hn
    apart := fun _ he _ hi _ _ hg hg' _ hn _ hn' =>
      h.claim_apart hempty he hi hg hg' hn hn'
    complete := fun _ he _ hn hsuits => h.claim_complete he hn hsuits }

end Claim

/-! ### All turns -/

/-- All turns, of entities that have one each. -/
theorem run (h : Shared nodes direct done state) {entries : List (Nat × List Link)}
    (hnodup : ((done ++ entries).map (·.1)).Nodup)
    (hempty : ∀ e ∈ entries, direct[e.1]? = some []) :
    Shared nodes direct (done ++ entries) (entries.foldl (Decode.claim nodes) state) := by
  induction entries generalizing done state with
  | nil => rwa [List.append_nil]
  | cons e rest ih =>
      rw [List.append_cons] at hnodup ⊢
      refine ih (h.claim ?_ (hempty e List.mem_cons_self)) hnodup
        fun d hd => hempty d (List.mem_cons_of_mem _ hd)
      have hsplit := hnodup
      rw [List.map_append, List.map_append] at hsplit
      have hfirst := List.nodup_append.mp (List.nodup_append.mp hsplit).1
      exact fun hmem => hfirst.2.2 e.1 hmem e.1 (by simp) rfl

end Shared

/-! ## The order of turns -/

/-- Those that have a turn are the entities that resolve their types. -/
theorem mem_resolvingOrder {e : Nat × List Link} :
    e ∈ resolvingOrder ns parts ↔ ∃ p, parts[e.1]? = some p ∧ isResolving p = true ∧
      e.2 = linksOf ns parts e.1 p := by
  have hall : ∀ l : List (Nat × List Link),
      e ∈ l.filter (!·.2.isEmpty) ++ l.filter (·.2.isEmpty) ↔ e ∈ l := by
    intro l
    rw [List.mem_append, List.mem_filter, List.mem_filter]
    cases e.2.isEmpty <;> simp
  unfold resolvingOrder
  rw [hall, List.mem_filterMap]
  constructor
  · rintro ⟨⟨p, i⟩, hp, he⟩
    dsimp only at he
    split at he
    next hresolving =>
      obtain rfl := Option.some.inj he
      exact ⟨p, List.mem_zipIdx_iff_getElem?.mp hp, hresolving, rfl⟩
    next => cases he
  · rintro ⟨p, hp, hresolving, hlinks⟩
    refine ⟨(p, e.1), List.mem_zipIdx_iff_getElem?.mpr hp, ?_⟩
    dsimp only
    rw [if_pos hresolving, ← hlinks]

/-- The places of what is selected from a list, in the order of the list. -/
theorem places_sublist {α : Type} {f : α → Option (Nat × List Link)} (place : α → Nat)
    (hf : ∀ a e, f a = some e → e.1 = place a) (items : List α) :
    ((items.filterMap f).map (·.1)).Sublist (items.map place) := by
  induction items with
  | nil => exact List.Sublist.slnil
  | cons a rest ih =>
      cases ha : f a with
      | none =>
          rw [List.filterMap_cons_none ha]
          exact ih.cons _
      | some e =>
          rw [List.filterMap_cons_some ha, List.map_cons, List.map_cons, hf a e ha]
          exact ih.cons_cons _

/-- Nobody has two turns. -/
theorem nodup_resolvingOrder (ns : Namespaces) (parts : List Part) :
    ((resolvingOrder ns parts).map (·.1)).Nodup := by
  have hperm : ∀ resolving : List (Nat × List Link),
      (resolving.filter (!·.2.isEmpty) ++ resolving.filter (·.2.isEmpty)).Perm resolving := by
    intro resolving
    have hswap := List.filter_append_perm (fun e : Nat × List Link => e.2.isEmpty) resolving
    exact List.perm_append_comm.trans hswap
  unfold resolvingOrder
  refine (((hperm _).map (·.1)).nodup_iff).mpr ?_
  refine List.Nodup.sublist (places_sublist Prod.snd ?_ _) ?_
  · rintro ⟨p, i⟩ e he
    dsimp only at he
    split at he
    · rw [← Option.some.inj he]
    · cases he
  · rw [List.zipIdx_map_snd]
    exact List.nodup_range'

/-- What an entity has before all turns it has in the order of the nodes. -/
theorem directGroup_sublist (ns : Namespaces) (nodes : NodeMap) (p : Part) :
    (directGroup ns nodes p).Sublist nodes := by
  unfold directGroup
  split
  · exact List.nil_sublist _
  · split
    next id _ =>
      cases hfound : nodes.get? id with
      | none => exact List.nil_sublist _
      | some n => exact List.singleton_sublist.mpr (List.mem_of_find?_eq_some hfound)
    next => exact List.filter_sublist
    next => exact List.filter_sublist

/-- After all turns the nodes are shared out. -/
theorem shared_groupNodes (ns : Namespaces) (nodes : NodeMap) (parts : List Part) :
    ∃ taken, Shared nodes (parts.map (directGroup ns nodes)) (resolvingOrder ns parts)
      (taken, groupNodes ns nodes parts) := by
  have hsublist : ∀ g ∈ parts.map (directGroup ns nodes), g.Sublist nodes := by
    intro g hg
    obtain ⟨p, -, rfl⟩ := List.mem_map.mp hg
    exact directGroup_sublist ns nodes p
  refine ⟨_, (Shared.start hsublist).run (nodup_resolvingOrder ns parts) fun e he => ?_⟩
  obtain ⟨p, hp, hresolving, -⟩ := mem_resolvingOrder.mp he
  rw [List.getElem?_map, hp]
  simp [directGroup, hresolving]

/-- **Nodes are shared out.**  Take nodes with an identity each.  Every group lists nodes in
their order, without repetition.  The group of an entity that resolves its type and is not
fixed meets no other group; its nodes have a type and carry all that is required of them.
A typed node that carries all that is required for one of these entities is in some group,
and so every typed node is if nothing is required for one of them. -/
theorem groupNodes_partition (hnodes : (nodes.map (·.id)).Nodup) :
    (groupNodes ns nodes parts).length = parts.length ∧
    (∀ g ∈ groupNodes ns nodes parts, g.Sublist nodes ∧ g.Nodup) ∧
    (∀ i p g, parts[i]? = some p → isResolving p = true →
      (groupNodes ns nodes parts)[i]? = some g →
        (∀ n ∈ g, n.types ≠ [] ∧ ∀ l, Required ns parts i p l → l.Holds nodes n) ∧
        ∀ j g', j ≠ i → (groupNodes ns nodes parts)[j]? = some g' → g.Disjoint g') ∧
    (∀ i p, parts[i]? = some p → isResolving p = true →
      (∀ n ∈ nodes, n.types ≠ [] → (∀ l, Required ns parts i p l → l.Holds nodes n) →
        ∃ g ∈ groupNodes ns nodes parts, n ∈ g) ∧
      ((∀ l, ¬ Required ns parts i p l) →
        ∀ n ∈ nodes, n.types ≠ [] → ∃ g ∈ groupNodes ns nodes parts, n ∈ g)) := by
  obtain ⟨taken, h⟩ := shared_groupNodes ns nodes parts
  have hsuits : ∀ i p n, Suits nodes (linksOf ns parts i p) n ↔
      n.types ≠ [] ∧ ∀ l, Required ns parts i p l → l.Holds nodes n := by
    intro i p n
    simp only [Suits, mem_linksOf]
  refine ⟨length_groupNodes ns nodes parts, ?_, ?_, ?_⟩
  · intro g hg
    exact ⟨h.sublist g hg, (List.Nodup.of_map _ hnodes).sublist (h.sublist g hg)⟩
  · intro i p g hp hresolving hg
    have hturn : (i, linksOf ns parts i p) ∈ resolvingOrder ns parts :=
      mem_resolvingOrder.mpr ⟨p, hp, hresolving, rfl⟩
    refine ⟨fun n hn => (hsuits i p n).mp (h.suits _ hturn g hg n hn), ?_⟩
    intro j g' hj hg' n hn hn'
    exact h.apart _ hturn j hj g g' hg hg' n hn n hn' rfl
  · intro i p hp hresolving
    have hgroup : ∀ n ∈ nodes, n.types ≠ [] →
        (∀ l, Required ns parts i p l → l.Holds nodes n) →
          ∃ g ∈ groupNodes ns nodes parts, n ∈ g := by
      intro n hn htypes hholds
      have hturn : (i, linksOf ns parts i p) ∈ resolvingOrder ns parts :=
        mem_resolvingOrder.mpr ⟨p, hp, hresolving, rfl⟩
      have htaken := h.complete _ hturn n hn ((hsuits i p n).mpr ⟨htypes, hholds⟩)
      obtain ⟨k, g, hg, n', hn', hid⟩ := (h.taken_iff n.id).mp htaken
      -- the taken node is the one with this identity
      have hsame : n' = n :=
        List.inj_on_of_nodup_map hnodes ((h.sublist g (List.mem_of_getElem? hg)).subset hn') hn hid
      exact ⟨g, List.mem_of_getElem? hg, hsame ▸ hn'⟩
    refine ⟨hgroup, fun hnone n hn htypes => hgroup n hn htypes fun l hl => ?_⟩
    exact (hnone l hl).elim

/-- Projects, tasks with a project, all else that has a type, and a fixed note. -/
def typedWork : List Part :=
  let resolving (index : Nat) (conditions : Assoc Condition) : Entity :=
    { index := index
      schema := { context := [("project", .str "ex:project")] }
      conditions := conditions
      resolveType := true }
  [⟨resolving 0 [], { index := 0, subject := .var ⟨"eIri0"⟩ }⟩,
    ⟨resolving 1 [("project", .shared "eIri0")], { index := 1, subject := .var ⟨"eIri1"⟩ }⟩,
    ⟨resolving 2 [], { index := 2, subject := .var ⟨"eIri2"⟩ }⟩,
    ⟨{ index := 3, schema := {} }, { index := 3, subject := .iri "http://example.org/n" }⟩]

/-- The project and the task go to the entities that are linked, the fixed note to its own,
and the entity without links takes what has a type and is left. -/
theorem groupNodes_partition_typedWork :
    let project : Node := ⟨"http://example.org/p", ["http://example.org/Project"], []⟩
    let task : Node := ⟨"http://example.org/t", ["http://example.org/Task"],
      [("http://example.org/project", [.iri "http://example.org/p"])]⟩
    let note (id : String) : Node := ⟨id, ["http://example.org/Note"], []⟩
    let untyped : Node := ⟨"http://example.org/u", [], []⟩
    let nodes : NodeMap :=
      [note "http://example.org/n", task, untyped, project, note "http://example.org/m"]
    groupNodes .exampleOrg nodes typedWork =
        [[project], [task], [note "http://example.org/m"], [note "http://example.org/n"]] ∧
      [task].Disjoint [project] ∧ (Link.object "http://example.org/project").Holds nodes project ∧
      ∀ n ∈ nodes, n.types ≠ [] → ∃ g ∈ groupNodes .exampleOrg nodes typedWork, n ∈ g := by
  intro project task note untyped nodes
  have hgroups : groupNodes .exampleOrg nodes typedWork =
      [[project], [task], [note "http://example.org/m"], [note "http://example.org/n"]] := rfl
  obtain ⟨-, -, hmembers, hcomplete⟩ :=
    @groupNodes_partition .exampleOrg nodes typedWork (by decide)
  refine ⟨hgroups, ?_, ?_, ?_⟩
  · exact (hmembers 1 _ [task] rfl rfl (by rw [hgroups]; rfl)).2 0 [project] (by decide)
      (by rw [hgroups]; rfl)
  · refine ((hmembers 0 _ [project] rfl rfl (by rw [hgroups]; rfl)).1 project
      (List.mem_singleton_self _)).2 _ ?_
    exact mem_linksOf.mp (List.mem_singleton_self _)
  · refine (hcomplete 2 _ rfl rfl).2 fun l hl => ?_
    exact List.not_mem_nil (mem_linksOf.mpr hl)

end Decode

end ObjectGraph
