import Mathlib.Data.List.Forall2
import ObjectGraph.Proofs.Decode.Links
import ObjectGraph.Proofs.Decode.Reading
import ObjectGraph.Proofs.Json.Equality

/-!
# Nested objects

The objects that a graph yields hold objects of other entities, in the place of references
and gathered under reverse terms or in the member for reverse properties.  `Nested` lists
what a member can be: one of the object's own, with references replaced by children, or
the children of one backward link.  `Assembles` says that nothing else has changed and no
member is gone; a link of either direction keeps it (`Assembles.linkForward`,
`Assembles.linkBackward`), and so does all that is linked in (`assembles_linkLater`).
An object that refers to no child of an entity is `Settled`: a forward link makes it so, and
no later link puts a reference back (`settled_linkLater`).

The children are those of entities behind, and what is nested of them is whole: they have
all that is behind them nested in turn, down to the last entity (`graph_nests`).  Where no
entity but the root hangs under one behind it, what is nested is also what the children
look like when the loop has ended.
-/

namespace ObjectGraph

open Json (Value Object)

namespace Decode

variable {ns : Namespaces} {config : Config} {s : Scoped} {d d' : Decoded}
  {children : List Decoded} {later : List (Scoped × List Decoded)} {key predicate : String}
  {v w : Value}

/-! ## Members -/

/-- References replaced by the children they refer to, also within an array. -/
def replaceRefs (context : Context) (children : List Decoded) : Value → Value
  | .arr items => .arr (items.map (replaceRef context children))
  | v => replaceRef context children v

/-- A reference stays if no child has its identity, and else becomes the object of one. -/
theorem replaceRef_str (context : Context) (children : List Decoded) (id : String) :
    (replaceRef context children (.str id) = .str id ∧
        ∀ c ∈ children, c.node.id ≠ context.expand false id) ∨
      ∃ c ∈ children, c.node.id = context.expand false id ∧
        replaceRef context children (.str id) = .obj c.object := by
  unfold replaceRef findChild?
  dsimp only
  cases hfind : children.find? (·.node.id == context.expand false id) with
  | none => exact .inl ⟨rfl, by simpa using hfind⟩
  | some c =>
      have hid : c.node.id = context.expand false id := by simpa using List.find?_some hfind
      exact .inr ⟨c, List.mem_of_find?_eq_some hfind, hid, rfl⟩

/-- A forward link replaces the references under its key. -/
theorem get?_linkForward (context : Context) (children : List Decoded) (key : String)
    (d : Decoded) (k : String) :
    (linkForward context children key d).object.get? k =
      if key = k then (d.object.get? key).map (replaceRefs context children)
      else d.object.get? k := by
  unfold linkForward
  split
  next hv =>
    split
    next heq => rw [← heq, hv, Option.map_none]
    next => rfl
  next items hv =>
    rw [hv]
    exact Assoc.get?_insert _ _ _ _
  next v hitems hv =>
    have hone : replaceRefs context children v = replaceRef context children v := by
      cases v with
      | arr items => exact (hitems items rfl).elim
      | _ => rfl
    rw [hv, Option.map_some, hone]
    exact Assoc.get?_insert _ _ _ _

/-- All that a backward link can do to an object. -/
inductive Gathers (context : Context) (children : List Decoded) (key predicate : String)
    (d : Decoded) : Decoded → Prop
  | nothing (hmine : childrenOf children key predicate d.node.id = []) :
      Gathers context children key predicate d d
  | term {term : String} {definition : Definition}
      (hmine : childrenOf children key predicate d.node.id ≠ [])
      (hterm : context.reverseTermFor? predicate = some (term, definition)) :
      Gathers context children key predicate d
        { d with
          object := d.object.insert term (.arr (childrenOf children key predicate d.node.id)) }
  | member {members : Object} (hmine : childrenOf children key predicate d.node.id ≠ [])
      (hterm : context.reverseTermFor? predicate = none)
      (hmembers : (d.object.get? "@reverse").getD (.obj []) = .obj members) :
      Gathers context children key predicate d
        { d with
          object := d.object.insert "@reverse"
            (.obj (Assoc.insert members key
              (.arr (childrenOf children key predicate d.node.id)))) }
  | blocked (hmine : childrenOf children key predicate d.node.id ≠ [])
      (hterm : context.reverseTermFor? predicate = none)
      (hmembers : ∀ members, (d.object.get? "@reverse").getD (.obj []) ≠ .obj members) :
      Gathers context children key predicate d d

/-- A backward link does one of the listed things. -/
theorem linkBackward_gathers (context : Context) (children : List Decoded)
    (key predicate : String) (d : Decoded) :
    Gathers context children key predicate d (linkBackward context children key predicate d) := by
  unfold linkBackward
  split
  next hmine => exact .nothing hmine
  next hmine =>
    split
    next term definition hterm => exact .term hmine hterm
    next hterm =>
      split
      next members hmembers => exact .member hmine hterm hmembers
      next hmembers => exact .blocked hmine hterm hmembers

/-! ## Objects -/

/-- A later entity whose identity an object holds under a key has the object. -/
def IsReferent (s : Scoped) (later : List (Scoped × List Decoded)) (key : String)
    (c : Decoded) : Prop :=
  ∃ q children, (q, children) ∈ later ∧
    forwardKey? q.part.entity s.part.fragment = some key ∧ c ∈ children

/-- A value under a key, or the object of the child that it refers to. -/
inductive Replaced (s : Scoped) (later : List (Scoped × List Decoded)) (key : String) :
    Value → Value → Prop
  | kept {v : Value} : Replaced s later key v v
  | child {id : String} {c : Decoded} (hc : IsReferent s later key c)
      (hid : c.node.id = s.context.expand false id) : Replaced s later key (.str id) (.obj c.object)

/-- A value under a key with references replaced by children, also within an array. -/
inductive Filled (s : Scoped) (later : List (Scoped × List Decoded)) (key : String) :
    Value → Value → Prop
  | one {v w : Value} (h : Replaced s later key v w) : Filled s later key v w
  | items {vs ws : List Value} (h : List.Forall₂ (Replaced s later key) vs ws) :
      Filled s later key (.arr vs) (.arr ws)

/-- The children of a later entity that refer to a node by one of their keys, without that
key. -/
def IsGathering (ns : Namespaces) (s : Scoped) (later : List (Scoped × List Decoded))
    (id key predicate : String) (v : Value) : Prop :=
  ∃ q children, (q, children) ∈ later ∧
    (key, predicate) ∈ backwardKeys ns q.part.entity s.part.fragment ∧
    v = .arr (childrenOf children key predicate id)

/-- A member of an object with the objects of later entities in it. -/
inductive Nested (ns : Namespaces) (s : Scoped) (later : List (Scoped × List Decoded))
    (d : Decoded) : String → Value → Prop
  /-- A member of its own. -/
  | own {key : String} {v w : Value} (hv : d.object.get? key = some v)
      (hw : Filled s later key v w) : Nested ns s later d key w
  | gathered {term key predicate : String} {definition : Definition} {v : Value}
      (hterm : s.context.reverseTermFor? predicate = some (term, definition))
      (hv : IsGathering ns s later d.node.id key predicate v) : Nested ns s later d term v
  /-- The member for reverse properties with one entry. -/
  | single {key predicate : String} {v : Value}
      (hterm : s.context.reverseTermFor? predicate = none)
      (hv : IsGathering ns s later d.node.id key predicate v) :
      Nested ns s later d "@reverse" (.obj [(key, v)])
  /-- The member for reverse properties with one more entry. -/
  | more {members : Object} {key predicate : String} {v : Value}
      (hmembers : Nested ns s later d "@reverse" (.obj members))
      (hterm : s.context.reverseTermFor? predicate = none)
      (hv : IsGathering ns s later d.node.id key predicate v) :
      Nested ns s later d "@reverse" (.obj (Assoc.insert members key v))

/-- An object with the objects of later entities in it, and nothing else changed. -/
structure Assembles (ns : Namespaces) (s : Scoped) (later : List (Scoped × List Decoded))
    (d d' : Decoded) : Prop where
  node : d'.node = d.node
  members : ∀ key w, d'.object.get? key = some w → Nested ns s later d key w
  kept : ∀ key, d'.object.get? key = none → d.object.get? key = none

/-- Replacing a reference once more. -/
theorem Replaced.replaceRef (h : Replaced s later key v w)
    (hchildren : ∀ c ∈ children, IsReferent s later key c) :
    Replaced s later key v (replaceRef s.context children w) := by
  cases h with
  | child hc hid => exact .child hc hid
  | kept =>
      cases v with
      | str id =>
          rcases replaceRef_str s.context children id with ⟨hstr, -⟩ | ⟨c, hc, hid, hobj⟩
          · rw [hstr]
            exact .kept
          · rw [hobj]
            exact .child (hchildren c hc) hid
      | null | bool | num | arr | obj => exact .kept

/-- Replacing the references under a key once more. -/
theorem Filled.replaceRefs (h : Filled s later key v w)
    (hchildren : ∀ c ∈ children, IsReferent s later key c) :
    Filled s later key v (replaceRefs s.context children w) := by
  have hitems : ∀ {vs ws : List Value}, List.Forall₂ (Replaced s later key) vs ws →
      Filled s later key (.arr vs) (.arr (ws.map (replaceRef s.context children))) := by
    intro vs ws h
    refine .items (List.forall₂_map_right_iff.mpr (h.imp fun _ _ hreplaced => ?_))
    exact hreplaced.replaceRef hchildren
  cases h with
  | items h => exact hitems h
  | one h =>
      cases w with
      | arr items =>
          cases h with
          | kept => exact hitems (List.forall₂_same.mpr fun _ _ => .kept)
      | null | bool | num | str | obj => exact .one (h.replaceRef hchildren)

/-- Objects of children refer to nobody as values. -/
theorem replaceRefs_childrenOf (context : Context) (others : List Decoded)
    (key predicate id : String) :
    replaceRefs context others (.arr (childrenOf children key predicate id)) =
      .arr (childrenOf children key predicate id) := by
  have hsame : (childrenOf children key predicate id).map (replaceRef context others) =
      childrenOf children key predicate id := by
    unfold childrenOf
    rw [List.map_map]
    rfl
  rw [replaceRefs, hsame]

/-- Replacing the references of a member once more. -/
theorem Nested.replaceRefs (h : Nested ns s later d key w)
    (hchildren : ∀ c ∈ children, IsReferent s later key c) :
    Nested ns s later d key (replaceRefs s.context children w) := by
  cases h with
  | own hv hw => exact .own hv (hw.replaceRefs hchildren)
  | gathered hterm hv =>
      obtain ⟨q, gathered, hq, hkey, rfl⟩ := hv
      rw [replaceRefs_childrenOf]
      exact .gathered hterm ⟨q, gathered, hq, hkey, rfl⟩
  | single hterm hv => exact .single hterm hv
  | more hmembers hterm hv => exact .more hmembers hterm hv

namespace Assembles

/-- Without a link nothing changes. -/
theorem refl (ns : Namespaces) (s : Scoped) (later : List (Scoped × List Decoded))
    (d : Decoded) : Assembles ns s later d d :=
  ⟨rfl, fun _ _ hv => .own hv (.one .kept), fun _ h => h⟩

/-- One more member. -/
theorem insert (h : Assembles ns s later d d') (hw : Nested ns s later d key w) :
    Assembles ns s later d { d' with object := d'.object.insert key w } := by
  refine ⟨h.node, fun k u hu => ?_, fun k hnone => ?_⟩
  · dsimp only at hu
    rw [Assoc.get?_insert] at hu
    split at hu
    next heq => exact heq ▸ Option.some.inj hu ▸ hw
    next => exact h.members k u hu
  · dsimp only at hnone
    rw [Assoc.get?_insert] at hnone
    split at hnone
    next => cases hnone
    next => exact h.kept k hnone

/-- A forward link of a later entity. -/
theorem linkForward (h : Assembles ns s later d d')
    (hchildren : ∀ c ∈ children, IsReferent s later key c) :
    Assembles ns s later d (linkForward s.context children key d') := by
  refine ⟨?_, fun k w hw => ?_, fun k hnone => ?_⟩
  · unfold Decode.linkForward
    split <;> exact h.node
  · rw [get?_linkForward] at hw
    split at hw
    next heq =>
      subst heq
      obtain ⟨v, hv, rfl⟩ := Option.map_eq_some_iff.mp hw
      exact (h.members key v hv).replaceRefs hchildren
    next => exact h.members k w hw
  · rw [get?_linkForward] at hnone
    split at hnone
    next heq =>
      subst heq
      exact h.kept key (Option.map_eq_none_iff.mp hnone)
    next => exact h.kept k hnone

/-- A backward link of a later entity. -/
theorem linkBackward {q : Scoped} (h : Assembles ns s later d d') (hq : (q, children) ∈ later)
    (hkey : (key, predicate) ∈ backwardKeys ns q.part.entity s.part.fragment) :
    Assembles ns s later d (linkBackward s.context children key predicate d') := by
  have hgathering : IsGathering ns s later d.node.id key predicate
      (.arr (childrenOf children key predicate d'.node.id)) :=
    ⟨q, children, hq, hkey, by rw [h.node]⟩
  have hstep := linkBackward_gathers s.context children key predicate d'
  generalize Decode.linkBackward s.context children key predicate d' = linked at hstep ⊢
  cases hstep with
  | nothing | blocked => exact h
  | term _ hterm => exact h.insert (.gathered hterm hgathering)
  | member _ hterm hmembers =>
      refine h.insert ?_
      cases hold : d'.object.get? "@reverse" with
      | none =>
          rw [hold] at hmembers
          cases hmembers
          exact .single hterm hgathering
      | some v =>
          rw [hold] at hmembers
          obtain rfl := hmembers
          exact .more (h.members _ _ hold) hterm hgathering

/-- All links of a later entity. -/
theorem linkInto {q : Scoped} (h : Assembles ns s later d d') (hq : (q, children) ∈ later) :
    Assembles ns s later d (linkInto ns q.part.entity children s d') := by
  unfold Decode.linkInto
  dsimp only
  refine List.foldlRecOn _ _ ?_ fun e he entry hentry => he.linkBackward hq hentry
  split
  next key hkey => exact h.linkForward fun c hc => ⟨q, children, hq, hkey, hc⟩
  next => exact h

end Assembles

/-- Linking the objects of later entities in assembles an object. -/
theorem assembles_linkLater (ns : Namespaces) (s : Scoped)
    (later : List (Scoped × List Decoded)) (d : Decoded) :
    Assembles ns s later d (linkLater ns s later d) := by
  have hsub : ∀ some ⊆ later, Assembles ns s later d (linkLater ns s some d) := by
    intro some
    induction some with
    | nil => exact fun _ => .refl ns s later d
    | cons e rest ih =>
        intro h
        obtain ⟨hmem, hrest⟩ := List.cons_subset.mp h
        exact (ih hrest).linkInto hmem
  exact hsub later (List.Subset.refl _)

/-! ## References -/

/-- A value refers to one of some children, by itself or by an item. -/
inductive RefersTo (context : Context) (children : List Decoded) : Value → Prop
  | text {id : String} {c : Decoded} (hc : c ∈ children)
      (hid : c.node.id = context.expand false id) : RefersTo context children (.str id)
  | item {id : String} {c : Decoded} {items : List Value} (hitem : .str id ∈ items)
      (hc : c ∈ children) (hid : c.node.id = context.expand false id) :
      RefersTo context children (.arr items)

/-- What is left as a text refers to no child. -/
theorem replaceRef_eq_str {context : Context} {id : String}
    (h : replaceRef context children v = .str id) :
    v = .str id ∧ ∀ c ∈ children, c.node.id ≠ context.expand false id := by
  cases v with
  | str i =>
      rcases replaceRef_str context children i with ⟨hstr, hother⟩ | ⟨c, -, -, hobj⟩
      · obtain rfl := Value.str.inj (hstr.symm.trans h)
        exact ⟨rfl, hother⟩
      · cases hobj.symm.trans h
  | null | bool | num | arr | obj => cases h

/-- Replacing references makes none. -/
theorem RefersTo.of_replaceRefs {context : Context} {others : List Decoded}
    (h : RefersTo context children (replaceRefs context others v)) :
    RefersTo context children v := by
  cases v with
  | arr items =>
      cases h with
      | item hitem hc hid =>
          obtain ⟨w, hw, heq⟩ := List.mem_map.mp hitem
          obtain ⟨rfl, -⟩ := replaceRef_eq_str heq
          exact .item hw hc hid
  | str id =>
      change RefersTo context children (replaceRef context others (.str id)) at h
      rcases replaceRef_str context others id with ⟨hstr, -⟩ | ⟨c, -, -, hobj⟩
      · rwa [hstr] at h
      · rw [hobj] at h
        cases h
  | null | bool | num | obj => cases h

/-- Replacing the references to some children leaves none to them. -/
theorem not_refersTo_replaceRefs (context : Context) (children : List Decoded) (v : Value) :
    ¬ RefersTo context children (replaceRefs context children v) := by
  intro h
  have hvalue := h.of_replaceRefs
  cases hvalue with
  | @text id c hc hid =>
      change RefersTo context children (replaceRef context children (.str id)) at h
      rcases replaceRef_str context children id with ⟨-, hother⟩ | ⟨found, -, -, hobj⟩
      · exact hother c hc hid
      · rw [hobj] at h
        cases h
  | item =>
      cases h with
      | item hitem hc hid =>
          obtain ⟨w, -, heq⟩ := List.mem_map.mp hitem
          exact (replaceRef_eq_str heq).2 _ hc hid

/-- Children that a backward link put into an object refer to nobody any more. -/
theorem not_refersTo_childrenOf (context : Context) (others : List Decoded)
    (key predicate id : String) :
    ¬ RefersTo context others (.arr (childrenOf children key predicate id)) := by
  intro h
  cases h with
  | item hitem =>
      obtain ⟨c, -, heq⟩ := List.mem_map.mp hitem
      cases heq

/-- An object refers to none of some children under a key. -/
def Settled (context : Context) (children : List Decoded) (key : String) (d : Decoded) : Prop :=
  ∀ v, d.object.get? key = some v → ¬ RefersTo context children v

namespace Settled

variable {context : Context} {others : List Decoded}

/-- Linking forward by a key settles it. -/
theorem of_linkForward (context : Context) (children : List Decoded) (key : String)
    (d : Decoded) : Settled context children key (linkForward context children key d) := by
  intro v hv
  rw [get?_linkForward, if_pos rfl] at hv
  obtain ⟨w, -, rfl⟩ := Option.map_eq_some_iff.mp hv
  exact not_refersTo_replaceRefs context children w

/-- A settled key stays so when others are linked forward. -/
theorem linkForward (h : Settled context children key d) (k : String) :
    Settled context children key (linkForward context others k d) := by
  intro v hv
  rw [get?_linkForward] at hv
  split at hv
  next heq =>
    subst heq
    obtain ⟨w, hw, rfl⟩ := Option.map_eq_some_iff.mp hv
    exact fun hrefers => h w hw hrefers.of_replaceRefs
  next => exact h v hv

/-- One more member. -/
theorem insert {k : String} (h : Settled context children key d)
    (hw : ¬ RefersTo context children w) :
    Settled context children key { d with object := d.object.insert k w } := by
  intro v hv
  dsimp only at hv
  rw [Assoc.get?_insert] at hv
  split at hv
  next =>
    obtain rfl := Option.some.inj hv
    exact hw
  next => exact h v hv

/-- A settled key stays so when others are linked backward. -/
theorem linkBackward (h : Settled context children key d) (k predicate : String) :
    Settled context children key (linkBackward context others k predicate d) := by
  have hstep := linkBackward_gathers context others k predicate d
  generalize Decode.linkBackward context others k predicate d = linked at hstep ⊢
  cases hstep with
  | nothing | blocked => exact h
  | term => exact h.insert (not_refersTo_childrenOf context children k predicate d.node.id)
  | member => exact h.insert fun hrefers => by cases hrefers

/-- The links of one more entity. -/
theorem linkInto (h : Settled s.context children key d) (ns : Namespaces) (q : Entity) :
    Settled s.context children key (linkInto ns q others s d) := by
  unfold Decode.linkInto
  refine List.foldlRecOn _ _ ?_ fun e he entry _ => he.linkBackward entry.1 entry.2
  split
  · exact h.linkForward _
  · exact h

end Settled

/-- **No reference is left.**  Once all entities have been linked in, an object refers to no
child of an entity under the key that has its identity. -/
theorem settled_linkLater {q : Scoped} (hq : (q, children) ∈ later)
    (hkey : forwardKey? q.part.entity s.part.fragment = some key) (d : Decoded) :
    Settled s.context children key (linkLater ns s later d) := by
  induction later with
  | nil => cases hq
  | cons e rest ih =>
      obtain ⟨r, others⟩ := e
      rw [linkLater_cons, Function.comp_apply]
      rcases List.mem_cons.mp hq with heq | hq
      · obtain ⟨rfl, rfl⟩ := Prod.mk.inj heq
        unfold linkInto
        rw [hkey]
        refine List.foldlRecOn _ _ ?_ fun e he entry _ => he.linkBackward entry.1 entry.2
        exact .of_linkForward s.context children key _
      · exact (ih hq).linkInto ns r.part.entity

/-! ## Results -/

/-- If no entity but the root hangs under one behind it, all entities end whole. -/
theorem final_eq_whole {parts : List Part} (hparts : ∀ p ∈ parts, p.fragment.WellNamed)
    {quads : List Quad} (r : Reading ns config parts quads)
    (hdown : parts.tail.Pairwise fun q p => ¬ ∃ name, q.Ties ns p name) : r.final = r.whole := by
  refine linkAll_eq_assembled r.length_decoded ?_
  intro i j s q hs hq hpos hlt
  have hpart : ∀ {k : Nat} {t : Scoped}, r.entities[k]? = some t → parts[k]? = some t.part := by
    intro k t ht
    rw [← congrArg (·[k]?) r.entities_parts, List.getElem?_map, ht, Option.map_some]
  have hfree : ¬ ∃ name, q.part.Ties ns s.part name := by
    have htail : ∀ {k : Nat} {t : Scoped}, r.entities[k + 1]? = some t →
        parts.tail[k]? = some t.part := by
      intro k t ht
      rw [List.getElem?_tail]
      exact hpart ht
    obtain ⟨j, rfl⟩ := Nat.exists_eq_succ_of_ne_zero (Nat.ne_of_gt hpos)
    obtain ⟨i, rfl⟩ := Nat.exists_eq_succ_of_ne_zero (Nat.ne_of_gt (Nat.lt_trans hpos hlt))
    obtain ⟨hj, hqj⟩ := List.getElem?_eq_some_iff.mp (htail hq)
    obtain ⟨hi, hsi⟩ := List.getElem?_eq_some_iff.mp (htail hs)
    have hpair := List.pairwise_iff_getElem.mp hdown j i hj hi (Nat.lt_of_succ_lt_succ hlt)
    rwa [hqj, hsi] at hpair
  have hunlinked : ¬ ((∃ key, forwardKey? q.part.entity s.part.fragment = some key) ∨
      ∃ key predicate, (key, predicate) ∈ backwardKeys ns q.part.entity s.part.fragment) := by
    rw [linked_iff (hparts _ (List.mem_of_getElem? (hpart hs)))]
    rintro ⟨name, -, hties⟩
    exact hfree ⟨name, hties⟩
  rw [not_or, not_exists, not_exists] at hunlinked
  refine ⟨Option.eq_none_iff_forall_ne_some.mpr hunlinked.1, ?_⟩
  exact List.eq_nil_iff_forall_not_mem.mpr fun entry hentry =>
    hunlinked.2 entry.1 ⟨entry.2, hentry⟩

/-- **Nested objects are whole.**  The objects that a graph yields are those of the root
with the objects of later entities linked in, and so on at every depth: whatever object is
nested is that of an entity in which all those behind it have been linked, and no reference
to one is left under the key that has its identity.  If no entity but the root hangs under
one behind it, these objects are those with which the loop ends. -/
theorem graph_nests {c : Collection} {plan : ConstructPlan} {quads : List Quad}
    {objects : List Object} (hplan : c.compileConstruct ns config = .ok plan)
    (h : graph ns config c plan.parts quads = .ok objects) :
    ∃ r : Reading ns config plan.parts quads, objects.Perm (roots r.whole) ∧
      (∀ i s ds, r.own[i]? = some (s, ds) →
        r.whole[i]? = some (s, ds.map (linkLater ns s (r.whole.drop (i + 1)))) ∧
        ∀ d ∈ ds, Assembles ns s (r.whole.drop (i + 1)) d
            (linkLater ns s (r.whole.drop (i + 1)) d) ∧
          ∀ q children key, (q, children) ∈ r.whole.drop (i + 1) →
            forwardKey? q.part.entity s.part.fragment = some key →
            Settled s.context children key (linkLater ns s (r.whole.drop (i + 1)) d)) ∧
      ((plan.parts.tail.Pairwise fun q p => ¬ ∃ name, q.Ties ns p name) → r.final = r.whole) := by
  obtain ⟨r, hobjects⟩ := graph_reading h
  refine ⟨r, ?_, fun i s ds hi => ⟨Reading.getElem?_whole hi, fun d _ => ⟨?_, ?_⟩⟩,
    final_eq_whole ?_ r⟩
  · rwa [roots, r.head?_final] at hobjects
  · exact assembles_linkLater ns s _ d
  · exact fun q children key hq hkey => settled_linkLater hq hkey d
  · exact Collection.compileParts_wellNamed (Collection.compileParts_of_construct hplan)

/-- What a collection reads from quads. -/
def readBack (ns : Namespaces) (c : Collection) (quads : List Quad) :
    Except MapperError (List Object) := do
  let plan ← c.compileConstruct ns {}
  graph ns {} c plan.parts quads

/-- What is read back is read by the plan of a CONSTRUCT query. -/
theorem exists_plan_of_readBack {c : Collection} {quads : List Quad} {objects : List Object}
    (h : (readBack ns c quads).toOption = some objects) :
    ∃ plan, c.compileConstruct ns {} = .ok plan ∧
      graph ns {} c plan.parts quads = .ok objects := by
  unfold readBack at h
  cases hplan : c.compileConstruct ns {} with
  | error x => simp [hplan, bind, Except.bind, Except.toOption] at h
  | ok plan =>
      simp only [hplan, bind, Except.bind] at h
      refine ⟨plan, rfl, ?_⟩
      cases hgraph : graph ns {} c plan.parts quads with
      | error x => simp [hgraph, Except.toOption] at h
      | ok found =>
          rw [hgraph] at h
          exact congrArg Except.ok (Option.some.inj h)

/-- A project, its tasks, and the person who leads it and works on them. -/
def projectTasks : Collection where
  entities :=
    [{ index := 0
       schema :=
         { targetClass := some "ex:Project"
           context := [("lead", .str "ex:lead"),
             ("tasks", .obj [("@reverse", .str "ex:project")])]
           properties := [("lead", { format := some "iri" })] }
       conditions := [("lead", .shared "who")] },
     { index := 1
       schema :=
         { targetClass := some "ex:Task"
           context := [("project", .str "ex:project")]
           properties := [("project", { format := some "iri" })] }
       conditions := [("project", .shared "eIri0")] },
     { index := 2
       schema :=
         { targetClass := some "ex:Person"
           context := [("task", .str "ex:worksOn")]
           properties := [("task", { format := some "iri" })] }
       conditions := [("@id", .shared "who"), ("task", .shared "eIri1")] }]

/-- A quad between IRIs. -/
def quadOf (subject predicate object : String) : Quad :=
  ⟨.named subject, .named predicate, .named object, none⟩

/-- A project that Ann leads, with a task that she works on. -/
def projectQuads : List Quad :=
  [quadOf "http://example.org/p" Vocabulary.rdfType "http://example.org/Project",
   quadOf "http://example.org/p" "http://example.org/lead" "http://example.org/ann",
   quadOf "http://example.org/t" Vocabulary.rdfType "http://example.org/Task",
   quadOf "http://example.org/t" "http://example.org/project" "http://example.org/p",
   quadOf "http://example.org/ann" Vocabulary.rdfType "http://example.org/Person",
   quadOf "http://example.org/ann" "http://example.org/worksOn" "http://example.org/t"]

/-- The person is whole under the task that she works on, and the task under the project. -/
theorem graph_nests_projectTasks :
    ∃ (plan : ConstructPlan) (object : Object) (r : Reading .exampleOrg {} plan.parts projectQuads),
      projectTasks.compileConstruct .exampleOrg {} = .ok plan ∧
      graph .exampleOrg {} projectTasks plan.parts projectQuads = .ok [object] ∧
      object = [("@id", .str "ex:p"),
        ("lead", .obj [("@id", .str "ex:ann"), ("task", .str "ex:t")]),
        ("tasks", .arr [.obj [("@id", .str "ex:t"),
          ("@reverse", .obj [("task", .arr [.obj [("@id", .str "ex:ann")]])])]])] ∧
      [object].Perm (roots r.whole) ∧ r.final = r.whole := by
  obtain ⟨plan, hplan, h⟩ := exists_plan_of_readBack (show (readBack .exampleOrg projectTasks
    projectQuads).toOption = some [[("@id", .str "ex:p"),
      ("lead", .obj [("@id", .str "ex:ann"), ("task", .str "ex:t")]),
      ("tasks", .arr [.obj [("@id", .str "ex:t"),
        ("@reverse", .obj [("task", .arr [.obj [("@id", .str "ex:ann")]])])]])]] by decide +kernel)
  obtain ⟨r, hobjects, -, hend⟩ := graph_nests hplan h
  refine ⟨plan, _, r, hplan, h, rfl, hobjects, hend ?_⟩
  have hdown : ∀ made ∈ (projectTasks.compileConstruct .exampleOrg {}).toOption,
      made.parts.tail.Pairwise fun q p => ¬ ∃ name, q.Ties .exampleOrg p name := by
    decide +kernel
  exact hdown plan (by rw [hplan]; rfl)

end Decode

end ObjectGraph
