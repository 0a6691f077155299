import ObjectGraph.Proofs.Context.Words
import ObjectGraph.Proofs.Decode.Identity
import ObjectGraph.Proofs.Decode.Linking

/-!
# Readings of graphs

What comes of quads before and after linking.  A `Reading` has the nodes of the quads and
the entities of a collection with their contexts; its objects are those that the nodes
become (`own`), those with all entities behind linked in (`whole`), and those that the
loop leaves (`final`).  A graph yields the final objects of the root, sorted by the keys of
the order (`graph_sorts`).

The entities come one by one with their contexts, and links nest these in one another:
what both steps keep holds of all entities (`scopeAll_run`), such as that no term of a
context is a keyword (`scopeAll_words`) or defined twice (`scopeAll_distinct`).
-/

namespace ObjectGraph.Decode

variable {ns : Namespaces} {entities : List Scoped} {i : Nat}

/-! ## Entities with contexts -/

/-- One more entity comes with a context that is read over none or over an earlier one. -/
theorem addScoped_ok {config : Config} {state state' : List Scoped × List (Nat × Nat × String)}
    {p : Part} (h : addScoped ns config state p = .ok state') :
    ∃ base own context links, Context.parse base own = .ok context ∧
      (base = .empty ∨ ∃ s ∈ state.1, base = s.context) ∧
      state' = (state.1 ++ [⟨p, context⟩], links) := by
  unfold addScoped at h
  dsimp only at h
  cases hlink : parentLink? ns state.1 p.entity with
  | none =>
      cases hparse : Context.parse .empty (.obj (entityContext ns config p)) with
      | error x => simp [hlink, hparse, bind, Except.bind] at h
      | ok context =>
          simp only [hlink, hparse, bind, Except.bind, Except.ok.injEq] at h
          exact ⟨.empty, _, context, _, hparse, .inl rfl, h.symm⟩
  | some link =>
      simp only [hlink] at h
      generalize hbase : ((state.1[link.parent]?).map (·.context)).getD .empty = base at h
      have hearlier : base = .empty ∨ ∃ s ∈ state.1, base = s.context := by
        cases hparent : state.1[link.parent]? with
        | none => exact .inl (by rw [← hbase, hparent]; rfl)
        | some s => exact .inr ⟨s, List.mem_of_getElem? hparent, by rw [← hbase, hparent]; rfl⟩
      cases hown : shadowInherited base (entityContext ns config p) with
      | error x => simp [hown, bind, Except.bind] at h
      | ok own =>
          cases hparse : Context.parse base (.obj own) with
          | error x => simp [hown, hparse, bind, Except.bind] at h
          | ok context =>
              simp only [hown, hparse, bind, Except.bind, Except.ok.injEq] at h
              exact ⟨base, _, context, _, hparse, hearlier, h.symm⟩

/-- **Facts about contexts.**  What each entity that comes with its context keeps, and the
nesting of scopes, holds of all entities with the parts they come from. -/
theorem scopeAll_run {config : Config} {parts : List Part} (holds : List Part → List Scoped → Prop)
    (hnil : holds [] [])
    (hadd : ∀ before earlier p base own context, holds before earlier →
      (base = .empty ∨ ∃ s ∈ earlier, base = s.context) → Context.parse base own = .ok context →
        holds (before ++ [p]) (earlier ++ [⟨p, context⟩]))
    (hnest : ∀ before entities link, holds before entities →
      holds before (nestScope entities link))
    (h : scopeAll ns config parts = .ok entities) : holds parts entities := by
  have hrun : ∀ (rest before : List Part) (state state' : List Scoped × List (Nat × Nat × String)),
      holds before state.1 → rest.foldlM (addScoped ns config) state = .ok state' →
        holds (before ++ rest) state'.1 := by
    intro rest
    induction rest with
    | nil =>
        intro before state state' hstate h
        cases h
        rwa [List.append_nil]
    | cons p rest ih =>
        intro before state state' hstate h
        rw [List.foldlM_cons] at h
        cases hp : addScoped ns config state p with
        | error x => simp [hp, bind, Except.bind] at h
        | ok next =>
            simp only [hp, bind, Except.bind] at h
            obtain ⟨base, own, context, links, hparse, hbase, rfl⟩ := addScoped_ok hp
            have hnext := hadd before state.1 p base own context hstate hbase hparse
            rw [List.append_cons]
            exact ih (before ++ [p]) _ state' hnext h
  unfold scopeAll at h
  cases hfold : parts.foldlM (addScoped ns config) ([], []) with
  | error x => simp [hfold, bind, Except.bind] at h
  | ok state =>
      simp only [hfold, bind, Except.bind, Except.ok.injEq] at h
      subst h
      have hscoped : holds parts state.1 := hrun parts [] _ state hnil hfold
      exact List.foldlRecOn state.2.reverse nestScope hscoped
        fun entities hentities link _ => hnest parts entities link hentities

/-- Each part has a context. -/
theorem scopeAll_parts {config : Config} {parts : List Part}
    (h : scopeAll ns config parts = .ok entities) : entities.map (·.part) = parts := by
  refine scopeAll_run (fun parts entities => entities.map (·.part) = parts) rfl ?_ ?_ h
  · rintro before earlier p base own context rfl - -
    rw [List.map_append]
    rfl
  · rintro before entities ⟨parent, child, term⟩ rfl
    unfold nestScope
    dsimp only
    split
    next => rfl
    next =>
      apply List.ext_getElem?
      intro i
      rw [List.getElem?_map, List.getElem?_modify, List.getElem?_map]
      cases entities[i]? with
      | none => rfl
      | some s => by_cases hi : parent = i <;> simp [hi]

/-- What readings keep of the terms holds of each context. -/
theorem scopeAll_keeps {config : Config} {parts : List Part} {holds : Assoc Definition → Prop}
    (kept : Context.Kept holds) (h : scopeAll ns config parts = .ok entities) :
    ∀ s ∈ entities, holds s.context.terms := by
  refine scopeAll_run (fun _ entities => ∀ s ∈ entities, holds s.context.terms)
    (by simp) ?_ ?_ h
  · intro before earlier p base own context hearlier hbase hparse s hs
    rcases List.mem_append.mp hs with hs | hs
    · exact hearlier s hs
    · obtain rfl := List.mem_singleton.mp hs
      refine kept.parse own ?_ hparse
      rcases hbase with rfl | ⟨t, ht, rfl⟩
      · exact kept.nil
      · exact hearlier t ht
  · rintro before entities ⟨parent, child, term⟩ hentities
    unfold nestScope
    dsimp only
    split
    next => exact hentities
    next c hc =>
      intro s hs
      obtain ⟨i, hi⟩ := List.mem_iff_getElem?.mp hs
      rw [List.getElem?_modify] at hi
      obtain ⟨t, ht, rfl⟩ := Option.map_eq_some_iff.mp hi
      split
      · exact kept.modify (hentities t (List.mem_of_getElem? ht)) term _
      · exact hentities t (List.mem_of_getElem? ht)

/-- The terms of each context are words. -/
theorem scopeAll_words {config : Config} {parts : List Part}
    (h : scopeAll ns config parts = .ok entities) : ∀ s ∈ entities, s.context.Words :=
  scopeAll_keeps Context.kept_words h

/-- The terms of each context are defined once. -/
theorem scopeAll_distinct {config : Config} {parts : List Part}
    (h : scopeAll ns config parts = .ok entities) : ∀ s ∈ entities, s.context.Distinct :=
  scopeAll_keeps Context.kept_distinct h

/-- There is a group for each entity. -/
theorem length_groupNodes (ns : Namespaces) (nodes : NodeMap) (parts : List Part) :
    (groupNodes ns nodes parts).length = parts.length := by
  unfold groupNodes
  refine List.foldlRecOn
    (motive := fun state : List String × List (List Node) => state.2.length = parts.length)
    _ _ (by simp) ?_
  intro state hstate entry _
  simpa [claim] using hstate

/-! ## Readings -/

/-- Quads that are read for a collection: their nodes, and the entities with contexts. -/
structure Reading (ns : Namespaces) (config : Config) (parts : List Part) (quads : List Quad) where
  nodes : NodeMap
  entities : List Scoped
  nodes_eq : NodeMap.ofQuads quads = .ok nodes
  entities_eq : scopeAll ns config parts = .ok entities

namespace Reading

variable {config : Config} {parts : List Part} {quads : List Quad}

/-- The objects of the nodes of each entity. -/
def decoded (r : Reading ns config parts quads) : List (List Decoded) :=
  decodeAll ns r.nodes r.entities (groupNodes ns r.nodes parts)

/-- The entities with their own objects. -/
def own (r : Reading ns config parts quads) : List (Scoped × List Decoded) :=
  r.entities.zip r.decoded

/-- The entities with their objects, in which those of all entities behind are linked. -/
def whole (r : Reading ns config parts quads) : List (Scoped × List Decoded) :=
  assembled ns r.own

/-- The entities with the objects that linking leaves. -/
def final (r : Reading ns config parts quads) : List (Scoped × List Decoded) :=
  r.entities.zip (linkAll ns r.entities r.decoded)

variable (r : Reading ns config parts quads) {s : Scoped} {ds : List Decoded}

/-- The entities of a reading are those of the parts. -/
theorem entities_parts : r.entities.map (·.part) = parts :=
  scopeAll_parts r.entities_eq

/-- Every entity has its objects. -/
theorem length_decoded : r.entities.length = r.decoded.length := by
  have hparts : r.entities.length = parts.length := by
    rw [← congrArg List.length r.entities_parts, List.length_map]
  simp [decoded, decodeAll, length_groupNodes, hparts]

variable {r}

/-- The entities with their own objects are those of the reading. -/
theorem entity_of_own (h : r.own[i]? = some (s, ds)) : r.entities[i]? = some s :=
  (List.getElem?_zip_eq_some.mp h).1

/-- An entity with objects is one of the parts. -/
theorem part_mem (h : r.own[i]? = some (s, ds)) : s.part ∈ parts := by
  rw [← r.entities_parts]
  exact List.mem_map_of_mem (List.mem_of_getElem? (entity_of_own h))

/-- No term in the context of an entity is a keyword. -/
theorem words (h : r.own[i]? = some (s, ds)) : s.context.Words :=
  scopeAll_words r.entities_eq s (List.mem_of_getElem? (entity_of_own h))

/-- The own objects of an entity are the selected views of its nodes. -/
theorem object_of_own (h : r.own[i]? = some (s, ds)) {d : Decoded} (hd : d ∈ ds) :
    d.object = shape ns r.nodes s d.node := by
  obtain ⟨hs, hds⟩ := List.getElem?_zip_eq_some.mp h
  rw [decoded, decodeAll, List.getElem?_map] at hds
  obtain ⟨⟨t, members⟩, hmembers, rfl⟩ := Option.map_eq_some_iff.mp hds
  obtain rfl : t = s :=
    Option.some.inj ((List.getElem?_zip_eq_some.mp hmembers).1.symm.trans hs)
  obtain ⟨n, -, rfl⟩ := List.mem_map.mp hd
  rfl

/-- Behind an entity all others are linked into its objects. -/
theorem getElem?_whole (h : r.own[i]? = some (s, ds)) :
    r.whole[i]? = some (s, ds.map (linkLater ns s (r.whole.drop (i + 1)))) := by
  unfold whole
  rw [getElem?_assembled, h, Option.map_some]

/-- In the end an object has those of the entities that have a turn. -/
theorem getElem?_final (h : r.own[i]? = some (s, ds)) :
    r.final[i]? = some (s, ds.map (linkLater ns s (turns ns r.own 1 i))) :=
  (getElem?_linkAll r.length_decoded i).trans (congrArg (Option.map _) h)

/-- Linking makes up no entity. -/
theorem getElem?_final_of_none (h : r.own[i]? = none) : r.final[i]? = none :=
  (getElem?_linkAll r.length_decoded i).trans (congrArg (Option.map _) h)

/-- **The root is whole** at the end. -/
theorem head?_final (r : Reading ns config parts quads) : r.final.head? = r.whole.head? :=
  head?_linkAll r.length_decoded

end Reading

/-- The objects of the first entity. -/
def roots (entities : List (Scoped × List Decoded)) : List Json.Object :=
  (((entities.head?).map (·.2)).getD []).map (·.object)

/-- Every own object of the root is, after linking, among those of the root. -/
theorem Reading.mem_roots {config : Config} {parts : List Part} {quads : List Quad}
    {r : Reading ns config parts quads} {s : Scoped} {ds : List Decoded} {d : Decoded}
    (h : r.own[0]? = some (s, ds)) (hd : d ∈ ds) :
    (linkLater ns s (turns ns r.own 1 0) d).object ∈ roots r.final := by
  rw [roots, List.head?_eq_getElem?, getElem?_final h]
  exact List.mem_map_of_mem (List.mem_map_of_mem hd)

/-- The keys by which the objects of the root are sorted. -/
def orderKeys (c : Collection) : List Part → List OrderKey
  | [] => []
  | root :: _ => (c.orderBy ++ root.entity.orderBy).map (resolveKey root.fragment)

/-- **What a graph yields** are the objects that linking leaves of the root, sorted. -/
theorem graph_sorts {config : Config} {c : Collection} {parts : List Part} {quads : List Quad}
    {objects : List Json.Object} (h : graph ns config c parts quads = .ok objects) :
    ∃ r : Reading ns config parts quads,
      objects = sortBy (fun a b => compareObjects (orderKeys c parts) a b == .lt)
        (roots r.final) := by
  unfold graph graphNodes at h
  cases hnodes : NodeMap.ofQuads quads with
  | error x => simp [hnodes, Except.mapError, bind, Except.bind] at h
  | ok nodes =>
      cases hscoped : scopeAll ns config parts with
      | error x => simp [hnodes, hscoped, Except.mapError, bind, Except.bind] at h
      | ok entities =>
          let r : Reading ns config parts quads := ⟨nodes, entities, hnodes, hscoped⟩
          refine ⟨r, ?_⟩
          have hheads : (linkAll ns entities (decodeAll ns nodes entities
              (groupNodes ns nodes parts))).head?.getD [] =
              (r.final.head?.map (·.2)).getD [] := by
            unfold Reading.final Reading.decoded
            cases entities with
            | nil =>
                rw [decodeAll, List.zip_nil_left, List.map_nil]
                rfl
            | cons s rest =>
                cases hlinked : linkAll ns (s :: rest) (decodeAll ns nodes (s :: rest)
                    (groupNodes ns nodes parts)) with
                | nil => simp [r]
                | cons ds others => simp [r]
          simp only [hnodes, hscoped, Except.mapError, bind, Except.bind, hheads] at h
          unfold roots
          generalize (r.final.head?.map (·.2)).getD [] = found at h ⊢
          have hpairs : (found.map fun d => (d.node.id, d.object)).map (·.2) =
              found.map (·.object) := by
            rw [List.map_map]
            rfl
          cases parts with
          | nil =>
              cases h
              rw [hpairs]
              exact (sortBy_of_ties _).symm
          | cons root rest =>
              cases h
              rw [sortObjects_map_snd, hpairs]
              rfl

/-- A graph that is read has a reading, of which it returns the root, in some order. -/
theorem graph_reading {config : Config} {c : Collection} {parts : List Part} {quads : List Quad}
    {objects : List Json.Object} (h : graph ns config c parts quads = .ok objects) :
    ∃ r : Reading ns config parts quads, objects.Perm (roots r.final) := by
  obtain ⟨r, rfl⟩ := graph_sorts h
  exact ⟨r, sortBy_perm _ _⟩

end ObjectGraph.Decode
