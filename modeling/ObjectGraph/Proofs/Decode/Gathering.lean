import ObjectGraph.Proofs.Decode.Nesting

/-!
# Children under reverse terms

A backward link puts the children of an object in one place: under the reverse term of
their predicate, or under their key in the member for reverse properties.  It puts a new
array there, whatever the place held, so that of all that is put in one place the array of
the last turn stays (`Shows`).  The turns go from the last entity to the first: what stands
in the end is what the entity farthest in front has put there (`graph_gathers`).

So a child is found under the object that it refers to unless another entity in front of
its own, or a later key of its own, has children of the object in the same place.
-/

namespace ObjectGraph.Decode

open Json (Value Object)

variable {ns : Namespaces} {config : Config} {s : Scoped} {d : Decoded}
  {children : List Decoded} {later : List (Scoped × List Decoded)} {key predicate id : String}

/-! ## Places -/

/-- Where a backward link puts children. -/
inductive Place where
  | term (name : String)
  | member (key : String)
  deriving DecidableEq

/-- The entries of the member for reverse properties. -/
def reverseMembers (object : Object) : Object :=
  match object.get? "@reverse" with
  | some (.obj members) => members
  | _ => []

/-- The entries for reverse properties are those of the member, if it is an object. -/
theorem reverseMembers_eq {object members : Object}
    (h : (object.get? "@reverse").getD (.obj []) = .obj members) :
    reverseMembers object = members := by
  unfold reverseMembers
  cases hv : object.get? "@reverse" with
  | none =>
      rw [hv] at h
      exact Value.obj.inj h
  | some v =>
      rw [hv] at h
      obtain rfl := h
      rfl

/-- The entries for reverse properties are those that were entered last. -/
@[simp] theorem reverseMembers_insert (object members : Object) :
    reverseMembers (object.insert "@reverse" (.obj members)) = members := by
  rw [reverseMembers, Assoc.get?_insert, if_pos rfl]

/-- Every other member leaves the entries for reverse properties alone. -/
theorem reverseMembers_insert_of_ne {name : String} (h : name ≠ "@reverse") (object : Object)
    (v : Value) : reverseMembers (object.insert name v) = reverseMembers object := by
  rw [reverseMembers, Assoc.get?_insert, if_neg h, reverseMembers]

namespace Place

/-- What an object has in a place. -/
def get? (place : Place) (object : Object) : Option Value :=
  match place with
  | .term name => object.get? name
  | .member key => (reverseMembers object).get? key

/-- The place of the children that refer to an object by a key: the reverse term of its
predicate, or else the key in the member for reverse properties. -/
def of (context : Context) (key predicate : String) : Place :=
  match context.reverseTermFor? predicate with
  | some (name, _) => .term name
  | none => .member key

/-- Children can be put in a place: the member for reverse properties is an object if it is
there. -/
def Free (place : Place) (object : Object) : Prop :=
  match place with
  | .term name => name ≠ "@reverse"
  | .member _ => ∀ v, object.get? "@reverse" = some v → ∃ members, v = .obj members

/-- No reverse term is the member for reverse properties. -/
theorem ne_of_reverseTermFor? {context : Context} (h : context.Words) {name : String}
    {definition : Definition}
    (hterm : context.reverseTermFor? predicate = some (name, definition)) :
    name ≠ "@reverse" := by
  have hword : Iri.isKeyword name = false := h _ (List.mem_of_find?_eq_some hterm)
  rintro rfl
  exact absurd hword (by decide)

/-- Putting a value under a term. -/
theorem get?_insert_term {name : String} (hname : name ≠ "@reverse") (place : Place)
    (object : Object) (v : Value) :
    place.get? (object.insert name v) =
      if .term name = place then some v else place.get? object := by
  cases place with
  | term other =>
      rw [get?, Assoc.get?_insert]
      simp [get?]
  | member key =>
      rw [get?, reverseMembers_insert_of_ne hname]
      simp [get?]

/-- Putting a value in the member for reverse properties. -/
theorem get?_insert_member {place : Place} (hplace : place ≠ .term "@reverse") (object : Object)
    (key : String) (v : Value) :
    place.get? (object.insert "@reverse" (.obj ((reverseMembers object).insert key v))) =
      if .member key = place then some v else place.get? object := by
  cases place with
  | term other =>
      have hother : "@reverse" ≠ other := fun heq => hplace (congrArg Place.term heq.symm)
      rw [get?, Assoc.get?_insert, if_neg hother]
      simp [get?]
  | member other =>
      rw [get?, reverseMembers_insert, Assoc.get?_insert]
      simp [get?]

/-- The member for reverse properties is no place of its own. -/
theorem Free.ne {place : Place} {object : Object} (h : place.Free object) :
    place ≠ .term "@reverse" := by
  rintro rfl
  exact h rfl

/-- Linking forward keeps a place free. -/
theorem Free.linkForward {place : Place} (h : place.Free d.object) (context : Context)
    (others : List Decoded) (k : String) :
    place.Free (linkForward context others k d).object := by
  cases place with
  | term name => exact h
  | member name =>
      intro v hv
      rw [get?_linkForward] at hv
      split at hv
      next heq =>
        subst heq
        obtain ⟨old, hold, rfl⟩ := Option.map_eq_some_iff.mp hv
        obtain ⟨members, rfl⟩ := h old hold
        exact ⟨members, rfl⟩
      next => exact h v hv

/-- Linking backward keeps a place free. -/
theorem Free.linkBackward {place : Place} (h : place.Free d.object) (hwords : s.context.Words)
    (children : List Decoded) (key predicate : String) :
    place.Free (linkBackward s.context children key predicate d).object := by
  have hstep := linkBackward_gathers s.context children key predicate d
  generalize Decode.linkBackward s.context children key predicate d = linked at hstep ⊢
  cases place with
  | term name => exact h
  | member name =>
      cases hstep with
      | nothing | blocked => exact h
      | term _ hterm =>
          intro v hv
          rw [Assoc.get?_insert, if_neg (ne_of_reverseTermFor? hwords hterm)] at hv
          exact h v hv
      | member =>
          intro v hv
          rw [Assoc.get?_insert, if_pos rfl] at hv
          exact ⟨_, (Option.some.inj hv).symm⟩

end Place

/-- The children that a backward link along a key puts in a place. -/
def gathering? (s : Scoped) (id : String) (place : Place) (children : List Decoded)
    (entry : String × String) : Option (List Value) :=
  let mine := childrenOf children entry.1 entry.2 id
  if Place.of s.context entry.1 entry.2 = place ∧ mine ≠ [] then some mine else none

/-- A backward link puts its children in their place and changes no other one. -/
theorem get?_linkBackward (hwords : s.context.Words) (children : List Decoded)
    (key predicate : String) {place : Place} (hfree : place.Free d.object) :
    place.get? (linkBackward s.context children key predicate d).object =
      ((gathering? s d.node.id place children (key, predicate)).map .arr).or
        (place.get? d.object) := by
  have hstep := linkBackward_gathers s.context children key predicate d
  generalize linkBackward s.context children key predicate d = linked at hstep ⊢
  unfold gathering? Place.of
  dsimp only
  cases hstep with
  | nothing hmine => simp [hmine]
  | blocked hmine hterm hmembers =>
      have hother : Place.member key ≠ place := by
        rintro rfl
        cases hold : d.object.get? "@reverse" with
        | none => exact hmembers [] (by rw [hold]; rfl)
        | some v =>
            obtain ⟨members, rfl⟩ := hfree v hold
            exact hmembers members (by rw [hold]; rfl)
      simp [hterm, hother]
  | @term name _ hmine hterm =>
      rw [Place.get?_insert_term (Place.ne_of_reverseTermFor? hwords hterm), hterm]
      by_cases hplace : Place.term name = place <;> simp [hplace, hmine]
  | member hmine hterm hmembers =>
      rw [← reverseMembers_eq hmembers, Place.get?_insert_member hfree.ne, hterm]
      by_cases hplace : Place.member key = place <;> simp [hplace, hmine]

/-- A forward link leaves children where they are. -/
theorem get?_linkForward_place (place : Place) (context : Context) (others : List Decoded)
    (k : String)
    (h : place.get? d.object = some (.arr (childrenOf children key predicate id))) :
    place.get? (linkForward context others k d).object =
      some (.arr (childrenOf children key predicate id)) := by
  cases place with
  | term name =>
      rw [Place.get?] at h ⊢
      rw [get?_linkForward]
      split
      next heq =>
        subst heq
        rw [h, Option.map_some, replaceRefs_childrenOf]
      next => exact h
  | member name =>
      rw [Place.get?, reverseMembers] at h ⊢
      split at h
      next members hmembers =>
        have hsame : (linkForward context others k d).object.get? "@reverse" =
            some (.obj members) := by
          rw [get?_linkForward]
          split
          next heq =>
            subst heq
            rw [hmembers]
            rfl
          next => exact hmembers
        rw [hsame]
        exact h
      next => cases h

/-! ## Turns -/

/-- An object of an entity after some arrays of children have been put in a place, the last
one first: this one is there. -/
structure Shows (place : Place) (written : List (List Value)) (d : Decoded) : Prop where
  free : place.Free d.object
  gathered : ∀ mine ∈ written, ∃ children key predicate id,
    mine = childrenOf children key predicate id
  last : ∀ mine, written.head? = some mine → place.get? d.object = some (.arr mine)

namespace Shows

variable {place : Place} {written : List (List Value)}

/-- Linking forward leaves the children in a place where they are. -/
theorem linkForward (h : Shows place written d) (context : Context) (others : List Decoded)
    (k : String) : Shows place written (linkForward context others k d) where
  free := h.free.linkForward context others k
  gathered := h.gathered
  last mine hmine := by
    obtain ⟨children, key, predicate, id, rfl⟩ := h.gathered mine (List.mem_of_head? hmine)
    exact get?_linkForward_place place context others k (h.last _ hmine)

/-- Linking backward adds its children to what a place has been given. -/
theorem linkBackward (h : Shows place written d) (hwords : s.context.Words)
    (children : List Decoded) (key predicate : String) :
    Shows place ((gathering? s d.node.id place children (key, predicate)).toList ++ written)
      (linkBackward s.context children key predicate d) := by
  have hget := get?_linkBackward hwords children key predicate h.free
  have hfree := h.free.linkBackward hwords children key predicate
  cases hmine : gathering? s d.node.id place children (key, predicate) with
  | none =>
      rw [hmine] at hget
      exact ⟨hfree, h.gathered, fun mine hhead => hget.trans (h.last mine hhead)⟩
  | some mine =>
      rw [hmine] at hget
      refine ⟨hfree, fun other hother => ?_, fun other hhead => ?_⟩
      · rcases List.mem_cons.mp hother with rfl | hother
        · unfold gathering? at hmine
          dsimp only at hmine
          split at hmine
          next => exact ⟨_, _, _, _, (Option.some.inj hmine).symm⟩
          next => cases hmine
        · exact h.gathered other hother
      · obtain rfl := Option.some.inj hhead
        exact hget

end Shows

/-- All arrays of children that entities put in a place of an object, the last one first. -/
def gatherings (ns : Namespaces) (s : Scoped) (id : String) (place : Place)
    (later : List (Scoped × List Decoded)) : List (List Value) :=
  later.flatMap fun (q, children) =>
    ((backwardKeys ns q.part.entity s.part.fragment).filterMap
      (gathering? s id place children)).reverse

/-- The backward links of an entity. -/
theorem shows_foldl {place : Place} (hwords : s.context.Words) (children : List Decoded)
    (entries : List (String × String)) {written : List (List Value)}
    (h : Shows place written d) :
    Shows place ((entries.filterMap (gathering? s d.node.id place children)).reverse ++ written)
      (entries.foldl (fun d (key, predicate) => linkBackward s.context children key predicate d)
        d) := by
  induction entries generalizing d written with
  | nil => exact h
  | cons entry rest ih =>
      obtain ⟨key, predicate⟩ := entry
      have hrest := ih (h.linkBackward hwords children key predicate)
      rw [linkBackward_node] at hrest
      rw [List.foldl_cons, List.filterMap_cons]
      split
      next hmine => simpa [hmine] using hrest
      next mine hmine => simpa [hmine] using hrest

/-- Linking leaves the node of an object alone. -/
theorem linkLater_node (ns : Namespaces) (s : Scoped) (later : List (Scoped × List Decoded))
    (d : Decoded) : (linkLater ns s later d).node = d.node := by
  induction later with
  | nil => rfl
  | cons e rest ih =>
      rw [linkLater_cons, Function.comp_apply, linkInto_node]
      exact ih

/-- **The last array stays.**  When the objects of all entities have been linked in, an
object has in a place what was put there last. -/
theorem shows_linkLater {place : Place} (hwords : s.context.Words) (ns : Namespaces)
    (later : List (Scoped × List Decoded)) (hfree : place.Free d.object) :
    Shows place (gatherings ns s d.node.id place later) (linkLater ns s later d) := by
  induction later with
  | nil => exact ⟨hfree, nofun, nofun⟩
  | cons e rest ih =>
      obtain ⟨q, children⟩ := e
      have hnode := linkLater_node ns s rest d
      rw [linkLater_cons, Function.comp_apply]
      generalize linkLater ns s rest d = linked at ih hnode ⊢
      unfold linkInto gatherings
      dsimp only
      rw [← hnode] at ih ⊢
      rw [List.flatMap_cons]
      split
      next key hkey =>
        have hforward := shows_foldl hwords children
          (backwardKeys ns q.part.entity s.part.fragment) (ih.linkForward s.context children key)
        rw [linkForward_node] at hforward
        exact hforward
      next =>
        exact shows_foldl hwords children (backwardKeys ns q.part.entity s.part.fragment) ih

/-! ## Results -/

/-- A child that refers to an object is among those that its entity puts in the place. -/
theorem exists_gathering {q : Scoped} (hq : (q, children) ∈ later)
    (hkey : (key, predicate) ∈ backwardKeys ns q.part.entity s.part.fragment)
    {child : Decoded} (hchild : child ∈ children) (hrefers : child.node.refersTo predicate id) :
    ∃ mine, gathering? s id (Place.of s.context key predicate) children (key, predicate) =
        some mine ∧
      mine ∈ gatherings ns s id (Place.of s.context key predicate) later ∧
      .obj (child.object.swapErase key) ∈ mine := by
  have hmem : .obj (child.object.swapErase key) ∈ childrenOf children key predicate id :=
    List.mem_map_of_mem (List.mem_filter.mpr ⟨hchild, hrefers⟩)
  have hmine : gathering? s id (Place.of s.context key predicate) children (key, predicate) =
      some (childrenOf children key predicate id) :=
    if_pos ⟨rfl, List.ne_nil_of_mem hmem⟩
  refine ⟨_, hmine, List.mem_flatMap.mpr ⟨(q, children), hq, ?_⟩, hmem⟩
  exact List.mem_reverse.mpr (List.mem_filterMap.mpr ⟨_, hkey, hmine⟩)

/-- A decoded node has nothing under a key that is neither selected nor computed. -/
theorem get?_shape_eq_none (nodes : NodeMap) (n : Node) (hid : key ≠ "@id")
    (htype : key ≠ "@type") (hselected : key ∉ s.part.fragment.selected)
    (hcomputed : key ∉ s.part.fragment.bindVars.keys) :
    (shape ns nodes s n).get? key = none := by
  have henter : ∀ (object : Object) (k : String) (kind : Kind) (v : Option Value),
      k ≠ key → object.get? key = none → (enterValue object k kind v).get? key = none := by
    intro object k kind v hk h
    unfold enterValue
    split
    · exact h
    · rwa [Assoc.get?_insert, if_neg hk]
  have hword : ∀ (word : String) (v : Option Value), word ≠ key →
      Assoc.get? ((v.map fun v => (word, v)).toList) key = none := by
    intro word v hk
    cases v <;> simp [Assoc.get?, hk]
  unfold shape
  dsimp only
  refine List.foldlRecOn _ _ ?_ fun object hobject k hk =>
    henter object k _ _ (fun heq => hcomputed (heq ▸ hk)) hobject
  refine List.foldlRecOn _ _ ?_ fun object hobject k hk =>
    henter object k _ _ (fun heq => hselected (heq ▸ (List.mem_filter.mp hk).1)) hobject
  rw [Assoc.get?_append, hword _ _ hid.symm, Option.none_or]
  split
  · exact hword _ _ htype.symm
  · rfl

/-- Children can be put in a place of a decoded node. -/
theorem free_shape (nodes : NodeMap) (n : Node) (hwords : s.context.Words)
    (hreverse : s.context.reverseTermFor? predicate = none →
      "@reverse" ∉ s.part.fragment.selected ∧ "@reverse" ∉ s.part.fragment.bindVars.keys)
    (key : String) : (Place.of s.context key predicate).Free (shape ns nodes s n) := by
  unfold Place.of
  split
  next hterm => exact Place.ne_of_reverseTermFor? hwords hterm
  next hterm =>
    obtain ⟨hselected, hcomputed⟩ := hreverse hterm
    intro v hv
    rw [get?_shape_eq_none nodes n (by decide) (by decide) hselected hcomputed] at hv
    cases hv

/-- Up to an entity, no other one has children in a place of an object, nor has the entity
itself by another key. -/
def Unrivalled (ns : Namespaces) (s : Scoped) (whole : List (Scoped × List Decoded)) (i j : Nat)
    (id : String) (place : Place) (entry : String × String) : Prop :=
  ∀ k q children, 0 < k → k ≤ j → k ≠ i → whole[k]? = some (q, children) →
    ∀ other ∈ backwardKeys ns q.part.entity s.part.fragment,
      (gathering? s id place children other).isSome → k = j ∧ other = entry

/-- An entity has a turn if it comes late enough and is not the one that is linked. -/
theorem mem_turns {own : List (Scoped × List Decoded)} {i j m : Nat}
    {e : Scoped × List Decoded} (h : (assembled ns own)[j]? = some e) (hm : m ≤ j) (hne : j ≠ i) :
    e ∈ turns ns own m i := by
  unfold turns
  refine List.mem_map.mpr ⟨(e, j), List.mem_filter.mpr ⟨?_, by simpa using hne⟩, rfl⟩
  rw [List.mem_zipIdx_iff_le_and_getElem?_sub, List.getElem?_drop]
  exact ⟨hm, by rwa [Nat.add_sub_cancel' hm]⟩

/-- The children of an entity without a rival are put in their place last. -/
theorem head?_gatherings {own : List (Scoped × List Decoded)} {i j : Nat} {q : Scoped}
    {place : Place} {entry : String × String} {mine : List Value} (hpos : 0 < j) (hne : j ≠ i)
    (hj : (assembled ns own)[j]? = some (q, children))
    (hentry : entry ∈ backwardKeys ns q.part.entity s.part.fragment)
    (hmine : gathering? s id place children entry = some mine)
    (halone : Unrivalled ns s (assembled ns own) i j id place entry) :
    (gatherings ns s id place (turns ns own 1 i)).head? = some mine := by
  have hrun : ∀ m, m ≤ j → 0 < m →
      (gatherings ns s id place (turns ns own m i)).head? = some mine := by
    intro m hle hm
    induction hle using Nat.decreasingInduction with
    | self =>
        rw [turns_eq hj, if_neg hne, gatherings, List.flatMap_cons, List.head?_append,
          List.head?_reverse]
        have hall : ∀ other ∈ (backwardKeys ns q.part.entity s.part.fragment).filterMap
            (gathering? s id place children), other = mine := by
          intro other hother
          obtain ⟨k, hk, hsome⟩ := List.mem_filterMap.mp hother
          obtain ⟨-, rfl⟩ := halone j q children hpos (Nat.le_refl j) hne hj k hk
            (Option.isSome_iff_exists.mpr ⟨other, hsome⟩)
          exact Option.some.inj (hsome.symm.trans hmine)
        cases hlast : ((backwardKeys ns q.part.entity s.part.fragment).filterMap
            (gathering? s id place children)).getLast? with
        | none =>
            rw [List.getLast?_eq_none_iff] at hlast
            exact absurd (List.mem_filterMap.mpr ⟨entry, hentry, hmine⟩) (by simp [hlast])
        | some other =>
            rw [hall other (List.mem_of_getLast? hlast)]
            rfl
    | of_succ m hlt ih =>
        obtain ⟨⟨other, others⟩, hat⟩ : ∃ e, (assembled ns own)[m]? = some e :=
          ⟨_, List.getElem?_eq_getElem
            (Nat.lt_trans hlt (List.getElem?_eq_some_iff.mp hj).choose)⟩
        rw [turns_eq hat]
        split
        next => exact ih (Nat.succ_pos m)
        next hother =>
          have hnil : (backwardKeys ns other.part.entity s.part.fragment).filterMap
              (gathering? s id place others) = [] := by
            refine List.filterMap_eq_nil_iff.mpr fun k hk => ?_
            rw [← Option.not_isSome_iff_eq_none]
            intro hsome
            have hsame := (halone m other others hm (Nat.le_of_lt hlt) hother hat k hk hsome).1
            exact absurd hsame (Nat.ne_of_lt hlt)
          rw [gatherings, List.flatMap_cons]
          dsimp only
          rw [hnil]
          exact ih (Nat.succ_pos m)
  exact hrun 1 hpos Nat.one_pos

/-- **Children stand under what they refer to.**  In the place of the children that refer to
an object by a key stands what is put there last, from the last entity to the first.  These
are the children of an entity, without the key, unless another one in front of it or another
one of its keys has children of the object for the same place. -/
theorem graph_gathers {c : Collection} {parts : List Part} {quads : List Quad}
    {objects : List Object} (h : graph ns config c parts quads = .ok objects) :
    ∃ r : Reading ns config parts quads, objects.Perm (roots r.final) ∧
      ∀ i s ds, r.own[i]? = some (s, ds) →
        r.final[i]? = some (s, ds.map (linkLater ns s (turns ns r.own 1 i))) ∧
        ∀ j q children, 0 < j → j ≠ i → r.whole[j]? = some (q, children) →
          ∀ key name m, (key, name) ∈ q.part.entity.sharedConditions → key ≠ "@id" →
            s.part.fragment.subject = .var ⟨name⟩ → q.part.entity.mapping? ns key = some m →
            m.reverse = false →
            (s.context.reverseTermFor? m.iri = none →
              "@reverse" ∉ s.part.fragment.selected ∧
                "@reverse" ∉ s.part.fragment.bindVars.keys) →
            ∀ d ∈ ds, ∀ child ∈ children, child.node.refersTo m.iri d.node.id →
              ∃ mine, (Place.of s.context key m.iri).get?
                  (linkLater ns s (turns ns r.own 1 i) d).object = some (.arr mine) ∧
                (gatherings ns s d.node.id (Place.of s.context key m.iri)
                  (turns ns r.own 1 i)).head? = some mine ∧
                (Unrivalled ns s r.whole i j d.node.id (Place.of s.context key m.iri)
                  (key, m.iri) → .obj (child.object.swapErase key) ∈ mine) := by
  obtain ⟨r, hobjects⟩ := graph_reading h
  refine ⟨r, hobjects, fun i s ds hi => ⟨Reading.getElem?_final hi, ?_⟩⟩
  have hwords := Reading.words hi
  intro j q children hpos hne hj key name m hname hkey hsubject hmapping hforward hreverse d hd
    child hchild hrefers
  have hentry : (key, m.iri) ∈ backwardKeys ns q.part.entity s.part.fragment := by
    refine List.mem_filterMap.mpr ⟨(key, name), hname, ?_⟩
    have hown : ¬ (key = "@id" ∨ s.part.fragment.subjectVar?.map (·.name) ≠ some name) := by
      rw [Fragment.subjectVar?, hsubject]
      simp [hkey, Sparql.Term.asVar?]
    dsimp only
    rw [if_neg hown, hmapping, Option.filter_some_pos (by simpa using hforward)]
    rfl
  have hfree : (Place.of s.context key m.iri).Free d.object := by
    rw [Reading.object_of_own hi hd]
    exact free_shape r.nodes d.node hwords hreverse key
  have hshows := shows_linkLater hwords ns (turns ns r.own 1 i) hfree
  obtain ⟨mine, hmine, hwritten, hmem⟩ :=
    exists_gathering (mem_turns hj hpos hne) hentry hchild hrefers
  obtain ⟨last, hlast⟩ := Option.isSome_iff_exists.mp
    (List.isSome_head?.mpr (List.ne_nil_of_mem hwritten))
  refine ⟨last, hshows.last last hlast, hlast, fun halone => ?_⟩
  rw [head?_gatherings hpos hne hj hentry hmine halone] at hlast
  exact Option.some.inj hlast ▸ hmem

/-- Work of a class on a project. -/
def workOf (index : Nat) (class_ : String) : Entity where
  index := index
  schema :=
    { targetClass := some class_
      context := [("project", .str "ex:project")]
      properties := [("project", { format := some "iri" })] }
  conditions := [("project", .shared "eIri0")]

/-- A project with the tasks and the bugs that refer to it. -/
def projectWork : Collection where
  entities :=
    [{ index := 0
       schema :=
         { targetClass := some "ex:Project"
           context := [("tasks", .obj [("@reverse", .str "ex:project")])] } },
     workOf 1 "ex:Task", workOf 2 "ex:Bug"]

/-- A project with one task and one bug. -/
def workQuads : List Quad :=
  [quadOf "http://example.org/p" Vocabulary.rdfType "http://example.org/Project",
   quadOf "http://example.org/t" Vocabulary.rdfType "http://example.org/Task",
   quadOf "http://example.org/t" "http://example.org/project" "http://example.org/p",
   quadOf "http://example.org/b" Vocabulary.rdfType "http://example.org/Bug",
   quadOf "http://example.org/b" "http://example.org/project" "http://example.org/p"]

/-- The entities of some quads, with their own objects. -/
def readOwn (ns : Namespaces) (parts : List Part) (quads : List Quad) :
    Option (List (Scoped × List Decoded)) := do
  let nodes ← (NodeMap.ofQuads quads).toOption
  let entities ← (scopeAll ns {} parts).toOption
  some (entities.zip (decodeAll ns nodes entities (groupNodes ns nodes parts)))

/-- A reading reads its entities with their own objects. -/
theorem Reading.own_mem_readOwn {parts : List Part} {quads : List Quad}
    (r : Reading ns {} parts quads) : r.own ∈ readOwn ns parts quads := by
  simp [readOwn, r.nodes_eq, r.entities_eq, Except.toOption, own, decoded]

/-- An object of one entity refers to one of another, the project, by its only key that can,
for which the other one has a reverse term. -/
def HasWork (s q : Scoped) (d work : Decoded) : Prop :=
  ("project", "eIri0") ∈ q.part.entity.sharedConditions ∧
    s.part.fragment.subject = .var ⟨"eIri0"⟩ ∧
    q.part.entity.mapping? .exampleOrg "project" = some ⟨"http://example.org/project", false⟩ ∧
    Place.of s.context "project" "http://example.org/project" = .term "tasks" ∧
    work.node.refersTo "http://example.org/project" d.node.id ∧
    backwardKeys .exampleOrg q.part.entity s.part.fragment =
      [("project", "http://example.org/project")]

instance (s q : Scoped) (d work : Decoded) : Decidable (HasWork s q d work) :=
  inferInstanceAs (Decidable (_ ∧ _))

/-- The task is under the project: no entity stands between them. -/
theorem graph_gathers_projectWork :
    ∃ object mine, (readBack .exampleOrg projectWork workQuads).toOption = some [object] ∧
      object.get? "tasks" = some (.arr mine) ∧ .obj [("@id", .str "ex:t")] ∈ mine := by
  have hread : ∃ object, (readBack .exampleOrg projectWork workQuads).toOption = some [object] :=
    ⟨[("@id", .str "ex:p"), ("tasks", .arr [.obj [("@id", .str "ex:t")]])], by decide +kernel⟩
  obtain ⟨object, hread⟩ := hread
  obtain ⟨plan, hplan, h⟩ := exists_plan_of_readBack hread
  obtain ⟨r, hobjects, hgathers⟩ := graph_gathers h
  have hdata : ∀ made ∈ (projectWork.compileConstruct .exampleOrg {}).toOption,
      ∀ own ∈ readOwn .exampleOrg made.parts workQuads, ∃ e ∈ own[0]?, ∃ d ∈ e.2,
        ∃ f ∈ (assembled .exampleOrg own)[1]?, ∃ task ∈ f.2, HasWork e.1 f.1 d task ∧
          task.object.swapErase "project" = [("@id", .str "ex:t")] := by
    decide +kernel
  obtain ⟨⟨s, ds⟩, hi, d, hd, ⟨q, children⟩, hj, task, htask,
    ⟨hname, hsubject, hmapping, hplace, hrefers, hkeys⟩, hobject⟩ :=
      hdata plan (by rw [hplan]; rfl) r.own r.own_mem_readOwn
  obtain ⟨-, hchild⟩ := hgathers 0 s ds hi
  obtain ⟨mine, hmine, -, hmem⟩ := hchild 1 q children Nat.one_pos (by decide) hj
    "project" "eIri0" _ hname (by decide) hsubject hmapping rfl
    (fun hnone => by simp [Place.of, hnone] at hplace) d hd task htask hrefers
  rw [hplace] at hmine
  refine ⟨object, mine, hread, ?_, ?_⟩
  · rw [← List.mem_singleton.mp (hobjects.mem_iff.mpr (Reading.mem_roots hi hd))]
    exact hmine
  · rw [← hobject]
    refine hmem fun k t others hk hle hne ht other hother hsome => ?_
    obtain rfl : k = 1 := Nat.le_antisymm hle hk
    obtain ⟨rfl, rfl⟩ := Prod.mk.inj (Option.some.inj (ht.symm.trans hj))
    rw [hkeys] at hother
    exact ⟨rfl, List.mem_singleton.mp hother⟩

/-- A bug of the same project is not: the tasks are written over the bugs. -/
theorem bug_written_over :
    (readBack .exampleOrg projectWork workQuads).toOption =
        some [[("@id", .str "ex:p"), ("tasks", .arr [.obj [("@id", .str "ex:t")]])]] ∧
      ∃ plan ∈ (projectWork.compileConstruct .exampleOrg {}).toOption,
        ∃ own ∈ readOwn .exampleOrg plan.parts workQuads, ∃ e ∈ own[0]?, ∃ d ∈ e.2,
          ∃ f ∈ (assembled .exampleOrg own)[2]?, ∃ bug ∈ f.2, HasWork e.1 f.1 d bug ∧
            bug.object.swapErase "project" = [("@id", .str "ex:b")] := by
  decide +kernel

end ObjectGraph.Decode
