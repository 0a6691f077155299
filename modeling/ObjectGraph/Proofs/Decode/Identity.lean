import Mathlib.Data.List.Basic
import ObjectGraph.Decode.Graph
import ObjectGraph.Proofs.Compile.FollowUp
import ObjectGraph.Proofs.Decode.Sorting

/-!
# Whose identity an object carries

The object of an entity in a row carries an identity if the row binds the variable
of `@id`, which is the subject, or if a condition fixes it (`get?_entityObject`).
Merging keeps the identity that comes first, so that of a row is the identity of
its first entity that carries one, the root or another (`get?_rowObject`).

The objects of a graph go with the identities of their nodes, which linking and
sorting keep (`graphNodes_mem`).
-/

namespace ObjectGraph

open Json (Value Object)
open Sparql (Var Term)

/-! ## The variable of the identity -/

/-- The facts about the variables of a fragment that reading its rows relies on. -/
structure Fragment.Reads (f : Fragment) : Prop where
  identity : ∀ x, ("@id", x) ∈ f.props.entries → f.subject = .var x
  computed : ∀ key ∈ f.bindVars.keys, Schema.isKeyword key = false

namespace Fragment.Reads

variable {f f' : Fragment}

/-- Reading rows relies on the subject and on the variables of keys alone. -/
theorem of_eq (h : f.Reads) (hsubject : f'.subject = f.subject) (hprops : f'.props = f.props)
    (hcomputed : f'.bindVars = f.bindVars) : f'.Reads where
  identity := by rw [hsubject, hprops]; exact h.identity
  computed := hcomputed ▸ h.computed

/-- A key may be entered if it is not the identity, or stands for the subject. -/
theorem of_insert (h : f.Reads) {key : String} {x : Var} (hsubject : f'.subject = f.subject)
    (hprops : f'.props = f.props.insert key x) (hcomputed : f'.bindVars = f.bindVars)
    (hx : key = "@id" → f.subject = .var x) : f'.Reads where
  identity y hy := by
    rw [hprops] at hy
    rw [hsubject]
    rcases KeyVars.mem_insert hy with hy | heq
    · exact h.identity y hy
    · obtain ⟨rfl, rfl⟩ := Prod.mk.inj heq
      exact hx rfl
  computed := hcomputed ▸ h.computed

/-- A computed key may be entered if it is no keyword. -/
theorem of_computed (h : f.Reads) {key : String} {x : Var} (hkey : Schema.isKeyword key = false)
    (hsubject : f'.subject = f.subject) (hprops : f'.props = f.props)
    (hcomputed : f'.bindVars = f.bindVars.insert key x) : f'.Reads where
  identity := by rw [hsubject, hprops]; exact h.identity
  computed k hk := by
    rw [hcomputed] at hk
    obtain ⟨entry, hentry, rfl⟩ := List.mem_map.mp hk
    rcases KeyVars.mem_insert hentry with hentry | rfl
    · exact h.computed _ (List.mem_map_of_mem hentry)
    · exact hkey

end Fragment.Reads

/-- Every compiled fragment has its identity at its subject. -/
theorem Entity.compile_reads {ns : Namespaces} {config : Config} {options : CompileOptions}
    {e : Entity} {a a' : Allocator} {f : Fragment}
    (h : e.compile ns config options a = .ok (f, a')) : f.Reads := by
  have hid : ∀ {key : String}, Schema.isKeyword key = false → key ≠ "@id" := by
    rintro key hkey rfl
    simp [Schema.isKeyword] at hkey
  have hopen : ∀ subject b, e.subjectTerm ns a = .ok (subject, b) →
      (Draft.opening ns e subject b).fragment.Reads := by
    intro subject b _
    have hprops : ∀ x, ("@id", x) ∉ KeyVars.empty.entries := fun _ => List.not_mem_nil
    have hcomputed : ∀ key, key ∉ KeyVars.empty.keys := fun _ => List.not_mem_nil
    unfold Draft.opening Draft.addIdentity
    split <;> exact ⟨fun x hx => (hprops x hx).elim,
      fun key hkey => (hcomputed key hkey).elim⟩
  have htype : ∀ d d', d.fragment.Reads → Draft.Types ns e d d' → d'.fragment.Reads := by
    intro d d' hd hstep
    cases hstep with
    | resolved => exact hd.of_insert rfl rfl rfl fun h => absurd h (by decide)
    | exact => exact hd.of_eq rfl rfl rfl
    | untyped => exact hd
  have hselect : ∀ key ∈ e.selectedKeys, ∀ d d', d.fragment.Reads →
      Draft.Selects ns options e key d d' → d'.fragment.Reads := by
    intro key _ d d' hd hstep
    cases hstep with
    | identity hkey hsubject => exact hd.of_insert rfl rfl rfl fun _ => hsubject
    | borrowed hkey => exact hd.of_insert rfl rfl rfl fun h => (hid hkey h).elim
    | property hkey => exact hd.of_insert rfl rfl rfl fun h => (hid hkey h).elim
    | deferred => exact hd.of_eq rfl rfl rfl
    | pinned | type | computed | unknown | unmapped => exact hd
  have hrestrict : ∀ entry ∈ e.conditions, ∀ d d', d.fragment.Reads →
      Draft.Restricts ns config e entry.1 d entry.2 d' → d'.fragment.Reads := by
    rintro ⟨key, c⟩ _ d d' hd hstep
    cases hstep with
    | computed hkey => exact hd.of_computed hkey rfl rfl rfl
    | existence | hidden => exact hd.of_eq rfl rfl rfl
    | keyword | selected | unmapped => exact hd
  obtain ⟨d, hd, rfl, -⟩ :=
    compile_draft (fun d => d.fragment.Reads) hopen htype hselect hrestrict h
  exact hd.of_eq rfl rfl rfl

/-- The IRI that a row has for the subject of an entity: the one that is fixed, or the
one that the row binds. -/
def Part.subjectIn? (row : Row) (p : Part) : Option String :=
  match p.fragment.subject with
  | .iri iri => some iri
  | .var x => ((row.get? x.name).filter (·.isIri)).map (·.value)
  | _ => none

namespace Decode

/-! ## Rows -/

/-- Entering the bound values of some keys changes what stands under those that the row
binds. -/
theorem get?_enterBound (ns : Namespaces) (row : Row) (kind : String → Option Kind)
    (vars : KeyVars) (key : String) (object : Object) :
    Assoc.get? (enterBound ns row kind vars object) key =
      (((vars.var? key).bind fun x => row.get? x.name).map (binding ns (kind key))).or
        (Assoc.get? object key) := by
  have hnodup := vars.nodup_keys
  unfold KeyVars.keys at hnodup
  unfold enterBound KeyVars.var?
  generalize vars.entries = entries at hnodup ⊢
  induction entries generalizing object with
  | nil => rfl
  | cons entry rest ih =>
      obtain ⟨k, x⟩ := entry
      rw [List.map_cons, List.nodup_cons] at hnodup
      rw [List.foldl_cons, ih _ hnodup.2]
      by_cases hk : k = key
      · subst hk
        have hrest : Assoc.get? rest k = none := Assoc.get?_eq_none_iff.mpr hnodup.1
        rw [hrest]
        cases hrow : row.get? x.name <;> simp [Assoc.get?, hrow, Assoc.get?_insert]
      · cases hrow : row.get? x.name <;> simp [Assoc.get?, hk, hrow, Assoc.get?_insert]

/-- The value that a condition of an entity fixes for a key. -/
def fixedValue? (e : Entity) (key : String) : Option Value :=
  e.conditions.findSome? fun entry =>
    match entry.2 with
    | .value v => if entry.1 = key then some v else none
    | _ => none

/-- A condition that gives a value fixes it for its key. -/
theorem fixedValue?_of_condition {e : Entity} {key : String} {v : Value}
    (h : e.condition? key = some (.value v)) : fixedValue? e key = some v := by
  unfold Entity.condition? at h
  unfold fixedValue?
  generalize e.conditions = conditions at h ⊢
  induction conditions with
  | nil => cases h
  | cons entry rest ih =>
      obtain ⟨k, c⟩ := entry
      unfold Assoc.get? at h
      split at h
      next hk =>
        obtain rfl := Option.some.inj h
        simp [hk]
      next hk => cases c <;> simp [hk, ih h]

/-- Entering what conditions fix changes what stands under the selected keys that have
nothing yet. -/
theorem get?_enterPinned (ns : Namespaces) (p : Part) (key : String) (object : Object) :
    Assoc.get? (enterPinned ns p object) key =
      (Assoc.get? object key).or
        (if p.fragment.selected.contains key then
          (fixedValue? p.entity key).map (pinnedValue ns p.entity key)
        else none) := by
  unfold enterPinned fixedValue?
  induction p.entity.conditions generalizing object with
  | nil => simp
  | cons entry rest ih =>
      obtain ⟨k, c⟩ := entry
      rw [List.foldl_cons, ih]
      cases c with
      | value v =>
          by_cases hk : k = key
          · subst hk
            by_cases hselected : k ∈ p.fragment.selected <;>
              cases hobject : Assoc.get? object k <;>
              simp [Assoc.contains, hobject, hselected, Assoc.get?_insert]
          · dsimp only
            split <;> simp [Assoc.get?_insert, hk]
      | related | shared | computed => simp

/-- The class is entered under `@type` and nowhere else. -/
theorem get?_enterClass (ns : Namespaces) (p : Part) {key : String} (hkey : key ≠ "@type")
    (object : Object) : Assoc.get? (enterClass ns p object) key = Assoc.get? object key := by
  unfold enterClass
  split
  · rfl
  · split
    · rw [Assoc.get?_insert, if_neg (Ne.symm hkey)]
    · rfl

/-- The identity that an entity gives its object in a row: what the row binds for
`@id`, or else what a condition fixes. -/
def identityIn? (ns : Namespaces) (row : Row) (p : Part) : Option Value :=
  (((p.fragment.props.var? "@id").bind fun x => row.get? x.name).map
      (binding ns (some .iri))).or
    (if p.fragment.selected.contains "@id" then
      (fixedValue? p.entity "@id").map (pinnedValue ns p.entity "@id")
    else none)

/-- The object of an entity has the identity that the row or a condition gives it. -/
theorem get?_entityObject (ns : Namespaces) (row : Row) {p : Part} (h : p.fragment.Reads) :
    Assoc.get? (entityObject ns row p) "@id" = identityIn? ns row p := by
  have hcomputed : p.fragment.bindVars.var? "@id" = none := by
    refine Assoc.get?_eq_none_iff.mpr fun hmem => ?_
    simpa [Schema.isKeyword] using h.computed "@id" hmem
  have hkind : knownKind? p.entity "@id" = some .iri := by
    simp [knownKind?, Entity.knows, Schema.knows, Schema.kindOf, Schema.isKeyword]
  unfold entityObject identityIn?
  dsimp only
  rw [get?_enterClass ns p (by decide), get?_enterPinned, get?_enterBound,
    get?_enterBound, hcomputed, hkind]
  simp [Assoc.get?]

/-! ## Merging -/

/-- A key with a number behind it ends with a digit. -/
theorem append_toString_ne (key : String) (n : Nat) {s : String} {c : Char}
    (hlast : s.toList.getLast? = some c) (hc : c.isDigit = false) : key ++ toString n ≠ s := by
  rintro rfl
  rw [String.toList_append, Nat.toString_eq_repr, Nat.toList_repr,
    List.getLast?_append_of_ne_nil _ Nat.toDigits_ne_nil] at hlast
  have hdigit := Nat.isDigit_of_mem_toDigits (by decide) (by decide) (List.mem_of_getLast? hlast)
  rw [hdigit] at hc
  cases hc

/-- Merging a key into an object keeps its identity. -/
theorem get?_mergeKey (index : Nat) (root : Object) (entry : String × Value) :
    Assoc.get? (mergeKey index root entry) "@id" =
      (Assoc.get? root "@id").or (if entry.1 = "@id" then some entry.2 else none) := by
  obtain ⟨key, v⟩ := entry
  unfold mergeKey
  dsimp only
  split
  next htype =>
    subst htype
    unfold mergeType
    dsimp only
    split <;> simp [Assoc.get?_insert]
  next htype =>
    split
    next hnone =>
      rw [Assoc.get?_insert]
      by_cases hkey : key = "@id"
      · subst hkey
        simp [hnone]
      · simp [hkey]
    next w hsome =>
      have hkept : (Assoc.get? root "@id").or (if key = "@id" then some v else none) =
          Assoc.get? root "@id" := by
        by_cases hkey : key = "@id"
        · subst hkey
          simp [hsome]
        · simp [hkey]
      rw [hkept]
      split
      · rfl
      · rw [Assoc.get?_insert, if_neg (append_toString_ne key index (c := 'd') rfl rfl)]

/-- Of objects that are merged the first identity stays. -/
theorem get?_foldl_mergeKey (index : Nat) (object root : Object) :
    Assoc.get? (object.foldl (mergeKey index) root) "@id" =
      (Assoc.get? root "@id").or (Assoc.get? object "@id") := by
  induction object generalizing root with
  | nil => simp [Assoc.get?]
  | cons entry rest ih =>
      rw [List.foldl_cons, ih, get?_mergeKey, Option.or_assoc]
      congr 1
      obtain ⟨key, v⟩ := entry
      by_cases hkey : key = "@id" <;> simp [Assoc.get?, hkey]

/-- The identity of merged objects is that of the first with one. -/
theorem get?_merge (objects : List Object) :
    Assoc.get? (merge objects) "@id" = objects.findSome? (Assoc.get? · "@id") := by
  have hfrom : ∀ (rest : List Object) (root : Object) (index : Nat),
      Assoc.get? (mergeFrom root index rest) "@id" =
        (Assoc.get? root "@id").or (rest.findSome? (Assoc.get? · "@id")) := by
    intro rest
    induction rest with
    | nil => simp [mergeFrom]
    | cons object rest ih =>
        intro root index
        rw [mergeFrom, ih, get?_foldl_mergeKey, Option.or_assoc, List.findSome?_cons]
        cases Assoc.get? object "@id" <;> rfl
  cases objects with
  | nil => rfl
  | cons root rest =>
      rw [merge, hfrom, List.findSome?_cons]
      cases Assoc.get? root "@id" <;> rfl

/-- The identity of a row's object is that of its first entity with one. -/
theorem get?_rowObject (ns : Namespaces) (row : Row) {parts : List Part}
    (h : ∀ p ∈ parts, p.fragment.Reads) :
    Assoc.get? (rowObject ns parts row) "@id" = parts.findSome? (identityIn? ns row) := by
  unfold rowObject
  rw [get?_merge, List.findSome?_map]
  induction parts with
  | nil => rfl
  | cons p rest ih =>
      rw [List.forall_mem_cons] at h
      rw [List.findSome?_cons, List.findSome?_cons, Function.comp_apply,
        get?_entityObject ns row h.1, ih h.2]

/-! ## Graphs -/

/-- Linking forward leaves the node alone. -/
@[simp] theorem linkForward_node (context : Context) (children : List Decoded) (key : String)
    (parent : Decoded) : (linkForward context children key parent).node = parent.node := by
  unfold linkForward
  split <;> rfl

/-- Linking backward leaves the node alone. -/
@[simp] theorem linkBackward_node (context : Context) (children : List Decoded)
    (key predicate : String) (parent : Decoded) :
    (linkBackward context children key predicate parent).node = parent.node := by
  unfold linkBackward
  split
  · rfl
  · split
    · rfl
    · split <;> rfl

/-- Linking into an object leaves its node. -/
@[simp] theorem linkInto_node (ns : Namespaces) (child : Entity) (children : List Decoded)
    (s : Scoped) (parent : Decoded) :
    (linkInto ns child children s parent).node = parent.node := by
  unfold linkInto
  refine List.foldlRecOn (motive := fun d : Decoded => d.node = parent.node) _ _ ?_ ?_
  · split <;> simp
  · intro d hd entry _
    rw [linkBackward_node]
    exact hd

/-- Linking an entity into the others leaves the nodes of the first. -/
theorem linkEntity_node {ns : Namespaces} {entities : List Scoped}
    {linked : List (List Decoded)} {j : Nat} {d : Decoded}
    (h : d ∈ (linkEntity ns entities linked j).head?.getD []) :
    ∃ d' ∈ linked.head?.getD [], d.node = d'.node := by
  unfold linkEntity at h
  split at h
  next child children _ _ =>
    cases entities with
    | nil => simp at h
    | cons s entities =>
        cases linked with
        | nil => simp at h
        | cons parents linked =>
            simp only [List.zip_cons_cons, List.zipIdx_cons, List.map_cons, List.head?_cons,
              Option.getD_some] at h ⊢
            split at h
            next => exact ⟨d, h, rfl⟩
            next =>
              obtain ⟨parent, hparent, rfl⟩ := List.mem_map.mp h
              exact ⟨parent, hparent, linkInto_node ns child.part.entity children s parent⟩
  next => exact ⟨d, h, rfl⟩

/-- The nodes of the first entity after linking are among those before. -/
theorem linkAll_node {ns : Namespaces} {entities : List Scoped} {decoded : List (List Decoded)}
    {d : Decoded} (h : d ∈ (linkAll ns entities decoded).head?.getD []) :
    ∃ d' ∈ decoded.head?.getD [], d.node = d'.node := by
  have hall : ∀ d ∈ (linkAll ns entities decoded).head?.getD [],
      ∃ d' ∈ decoded.head?.getD [], d.node = d'.node := by
    unfold linkAll
    refine List.foldlRecOn
      (motive := fun linked : List (List Decoded) =>
        ∀ d ∈ linked.head?.getD [], ∃ d' ∈ decoded.head?.getD [], d.node = d'.node)
      _ _ (fun d hd => ⟨d, hd, rfl⟩) ?_
    intro linked hlinked j _ d hd
    obtain ⟨d₁, hd₁, hnode₁⟩ := linkEntity_node hd
    obtain ⟨d₂, hd₂, hnode₂⟩ := hlinked d₁ hd₁
    exact ⟨d₂, hd₂, hnode₁.trans hnode₂⟩
  exact hall d h

/-- Every object of a graph goes with the identity of a node that stands for the root. -/
theorem graphNodes_mem {ns : Namespaces} {config : Config} {c : Collection} {parts : List Part}
    {quads : List Quad} {roots : List (String × Object)}
    (h : graphNodes ns config c parts quads = .ok roots) {found : String × Object}
    (hfound : found ∈ roots) :
    ∃ nodes, NodeMap.ofQuads quads = .ok nodes ∧
      ∃ n ∈ (groupNodes ns nodes parts).head?.getD [], found.1 = n.id := by
  unfold graphNodes at h
  cases hnodes : NodeMap.ofQuads quads with
  | error x => simp [hnodes, Except.mapError, bind, Except.bind] at h
  | ok nodes =>
      cases hscoped : scopeAll ns config parts with
      | error x => simp [hnodes, hscoped, Except.mapError, bind, Except.bind] at h
      | ok entities =>
          refine ⟨nodes, rfl, ?_⟩
          have hroot : found ∈ ((linkAll ns entities (decodeAll ns nodes entities
              (groupNodes ns nodes parts))).head?.getD []).map fun d => (d.node.id, d.object) := by
            simp only [hnodes, hscoped, Except.mapError, bind, Except.bind] at h
            split at h
            · cases h
              exact hfound
            · cases h
              exact (sortObjects_perm _ _ _).mem_iff.mp hfound
          obtain ⟨d, hd, rfl⟩ := List.mem_map.mp hroot
          obtain ⟨d', hd', hnode⟩ := linkAll_node hd
          refine ⟨d'.node, ?_, congrArg Node.id hnode⟩
          unfold decodeAll at hd'
          cases entities with
          | nil => simp at hd'
          | cons s entities =>
              cases hgroups : groupNodes ns nodes parts with
              | nil => simp [hgroups] at hd'
              | cons members groups =>
                  simp only [hgroups, List.zip_cons_cons, List.map_cons, List.head?_cons,
                    Option.getD_some] at hd' ⊢
                  obtain ⟨n, hn, rfl⟩ := List.mem_map.mp hd'
                  exact hn

end Decode

end ObjectGraph
