import ObjectGraph.Proofs.Decode.Forms
import ObjectGraph.Proofs.Decode.Instances
import ObjectGraph.Proofs.Decode.PlainContext

/-!
# Objects of rows and of nodes

The object of a solution is read off the variables of a row; that of a node is written
under a context, and its values are brought to the kinds of their keys.  For the
fragment of a tabular entity with a plain schema both have one member for each selected
key whose variable the row binds, with the value that `cell` gives it: a row in the
order of the selection with the type behind (`entityObject_eq`), a node with identity
and type in front (`shape_eq`).

A value is the same on both ways because a reference is written in short form, as the
row has it, and a literal as its text, alone or with its datatype, which is taken out
again (`coerce_compactValue`).
-/

namespace ObjectGraph

open Json (Value Object)
open Sparql (Var Term Triple)

namespace Assoc

variable {α β : Type}

/-- A map whose keys are some of a list, in their order, is read along the list. -/
theorem filterMap_eq_of_keys {m : Assoc α} {names : List String} {keep : String → Bool}
    (hkeys : keys m = names.filter keep) (hnodup : (keys m).Nodup)
    (f : String → α → Option β) :
    m.filterMap (fun e => f e.1 e.2) = names.filterMap fun k => (get? m k).bind (f k) := by
  have hentries : m.filterMap (fun e => f e.1 e.2) =
      (keys m).filterMap fun k => (get? m k).bind (f k) := by
    unfold keys
    rw [List.filterMap_map]
    refine List.filterMap_congr fun e he => ?_
    rw [Function.comp_apply, get?_of_mem hnodup he, Option.bind_some]
  rw [hentries, hkeys, List.filterMap_filter]
  refine List.filterMap_congr fun k hk => ?_
  split
  · rfl
  next hdropped =>
    have hnone : get? m k = none := by
      rw [get?_eq_none_iff, hkeys]
      exact fun hmem => hdropped (List.mem_filter.mp hmem).2
    rw [hnone, Option.bind_none]

/-- Entries that are made for some names have these as their keys. -/
theorem keys_filterMap {f : String → Option (String × α)}
    (hf : ∀ k e, f k = some e → e.1 = k) (names : List String) :
    (keys (names.filterMap f)).Sublist names := by
  induction names with
  | nil => exact List.Sublist.refl _
  | cons k rest ih =>
      cases hk : f k with
      | none =>
          rw [List.filterMap_cons_none hk]
          exact ih.cons k
      | some e =>
          rw [List.filterMap_cons_some hk]
          exact hf k e hk ▸ ih.cons_cons e.1

/-- Picking out entries by their keys picks out the names they are made for. -/
theorem filter_filterMap {f : String → Option (String × α)}
    (hf : ∀ k e, f k = some e → e.1 = k) (keep : String → Bool) (names : List String) :
    (names.filterMap f).filter (fun e => keep e.1) = (names.filter keep).filterMap f := by
  induction names with
  | nil => rfl
  | cons k rest ih =>
      cases hk : f k with
      | none => cases hkeep : keep k <;> simp [hk, hkeep, ih]
      | some e =>
          obtain rfl := hf k e hk
          cases hkeep : keep e.1 <;> simp [hk, hkeep, ih]

end Assoc

/-- What the solutions of a table bind: the variables of all mandatory triples, the
subject and references to IRIs, and all other keys to literals in no language. -/
structure Part.Answers (p : Part) (row : Row) : Prop where
  subject : (p.subjectIn? row).isSome
  bound : ∀ t ∈ p.fragment.mandatory, ∀ x ∈ t.vars, (row.get? x.name).isSome
  typed : ∀ entry ∈ p.fragment.props.entries, entry.1 ≠ "@id" →
    ∀ b ∈ row.get? entry.2.name,
      if (p.entity.schema.kindOf entry.1).isReference then b.isIri = true
      else b.isIri = false ∧ b.isBlank = false ∧ b.language = none

instance (p : Part) (row : Row) : Decidable (p.Answers row) :=
  decidable_of_iff
    ((p.subjectIn? row).isSome ∧
      (∀ t ∈ p.fragment.mandatory, ∀ x ∈ t.vars, (row.get? x.name).isSome) ∧
      ∀ entry ∈ p.fragment.props.entries, entry.1 ≠ "@id" →
        ∀ b ∈ row.get? entry.2.name,
          if (p.entity.schema.kindOf entry.1).isReference then b.isIri = true
          else b.isIri = false ∧ b.isBlank = false ∧ b.language = none)
    ⟨fun ⟨hsubject, hbound, htyped⟩ => ⟨hsubject, hbound, htyped⟩,
      fun h => ⟨h.subject, h.bound, h.typed⟩⟩

/-- The keys of a tabular entity are single-valued, also those it does not know. -/
theorem Entity.Tabular.isArray_kindOf {ns : Namespaces} {e : Entity} (he : e.Tabular ns)
    (key : String) : (e.schema.kindOf key).isArray = false := by
  unfold Schema.kindOf
  cases hword : Schema.isKeyword key with
  | true => rfl
  | false =>
      cases hproperty : e.schema.property? key with
      | none => rfl
      | some property => exact he.scalar key property hword hproperty

namespace Decode

/-- A key that can be read has a kind. -/
theorem knownKind?_of_reads {ns : Namespaces} {e : Entity} {key : String} {m : Mapping}
    (hm : e.reads? ns key = some m) : knownKind? e key = some (e.schema.kindOf key) := by
  obtain ⟨-, ⟨property, hproperty⟩, -⟩ := Entity.reads?_eq_some.mp hm
  have hhas : e.schema.hasProperty key = true := Option.isSome_of_eq_some hproperty
  simp [knownKind?, Entity.knows, Schema.knows, hhas]

/-! ## Values -/

/-- A value that is written under the term of a key and brought to its kind is the
bound value as a row has it. -/
theorem coerce_compactValue {ns : Namespaces} {ctx : Context} {kind : Kind} {d : Definition}
    {iri : String} (hid : ∀ iri, ctx.compactId iri = ns.abbreviate iri)
    (harray : kind.isArray = false) (hd : d.StandsFor kind iri) {b : Binding}
    (hb : if kind.isReference then b.isIri = true
      else b.isIri = false ∧ b.isBlank = false ∧ b.language = none) :
    coerce (Node.compactValue ctx d.coercion b.toValue) kind = binding ns (some kind) b := by
  cases hkind : kind.isReference with
  | true =>
      rw [if_pos hkind] at hb
      have hvalue : Node.compactValue ctx d.coercion b.toValue = .str (ns.abbreviate b.value) := by
        simp [Binding.toValue, hb, Node.compactValue, Node.compactRef, hd.typed hkind, hid]
      rw [hvalue]
      cases kind with
      | array => cases harray
      | iri | object => simp [coerce, Kind.nest, Kind.element, textOfKind, binding, hb]
      | dateTime | integer | number | boolean | string => cases hkind
  | false =>
      rw [if_neg (by simp [hkind])] at hb
      obtain ⟨hiri, hblank, hlanguage⟩ := hb
      have hvalue : b.toValue = .literal b.value b.datatype none := by
        simp [Binding.toValue, hiri, hblank, hlanguage]
      have hcoerce : coerce (Node.compactValue ctx d.coercion b.toValue) kind =
          textOfKind b.value kind := by
        have hnest := Kind.nest_eq_self harray
        have helement := Kind.element_eq_self harray
        have htext : coerce (.str b.value) kind = textOfKind b.value kind := by
          rw [coerce, hnest, helement]
        rw [hvalue, Node.compactValue, Node.compactLiteral]
        split
        · exact htext
        · simp [coerce, coerceWrapped, Assoc.contains, Assoc.get?, hnest, helement]
      rw [hcoerce]
      cases kind with
      | array => cases harray
      | iri | object => cases hkind
      | dateTime | integer | number | boolean | string =>
          simp [binding, hiri, hblank, literalOfKind, Kind.element, textOfKind]

/-! ## Objects of rows -/

/-- What a row has for a key with some variable. -/
def cellAt (ns : Namespaces) (p : Part) (row : Row) (key : String) (x : Var) :
    Option (String × Value) :=
  (row.get? x.name).map fun b => (key, binding ns (knownKind? p.entity key) b)

/-- What a row has for a selected key. -/
def cell (ns : Namespaces) (p : Part) (row : Row) (key : String) : Option (String × Value) :=
  (p.fragment.props.var? key).bind (cellAt ns p row key)

/-- The members that a row has for selected keys, in their order. -/
def cells (ns : Namespaces) (p : Part) (row : Row) : Object :=
  p.entity.selectedKeys.filterMap (cell ns p row)

variable {ns : Namespaces} {config : Config} {p : Part} {s : Var} {class_ : String} {row : Row}

/-- What a row has for a key stands under that key. -/
theorem cell_key (ns : Namespaces) (p : Part) (row : Row) (key : String) (e : String × Value)
    (h : cell ns p row key = some e) : e.1 = key := by
  obtain ⟨x, -, h⟩ := Option.bind_eq_some_iff.mp h
  obtain ⟨b, -, rfl⟩ := Option.map_eq_some_iff.mp h
  rfl

/-- A row has one member for each key. -/
theorem nodup_cells (he : p.entity.Tabular ns) (row : Row) : (cells ns p row).keys.Nodup :=
  he.selected.sublist (Assoc.keys_filterMap (cell_key ns p row) _)

/-- The type is not among what a row has for selected keys. -/
theorem get?_cells_type (htable : p.fragment.Table ns p.entity s class_) (row : Row) :
    Assoc.get? (cells ns p row) "@type" = none := by
  rw [Assoc.get?_eq_none_iff]
  intro hmem
  obtain ⟨e, he, hkey⟩ := List.mem_map.mp hmem
  obtain ⟨key, -, hcell⟩ := List.mem_filterMap.mp he
  obtain rfl : key = "@type" := (cell_key ns p row key e hcell).symm.trans hkey
  obtain ⟨x, hx, -⟩ := Option.bind_eq_some_iff.mp hcell
  have hread := (htable.exists_var?_iff.mp ⟨x, hx⟩).2
  revert hread
  simp [Entity.isRead, Entity.reads?, Schema.isKeyword]

/-- Entering what a row binds makes the members that it has for selected keys. -/
theorem enterBound_eq (htable : p.fragment.Table ns p.entity s class_)
    (he : p.entity.Tabular ns) (row : Row) :
    enterBound ns row (knownKind? p.entity) p.fragment.props [] = cells ns p row := by
  have hcells : p.fragment.props.entries.filterMap (fun e => cellAt ns p row e.1 e.2) =
      cells ns p row :=
    Assoc.filterMap_eq_of_keys htable.keys p.fragment.props.nodup_keys (cellAt ns p row)
  have hinsert : enterBound ns row (knownKind? p.entity) p.fragment.props [] =
      (p.fragment.props.entries.filterMap fun e => cellAt ns p row e.1 e.2).foldl
        (fun object e => Assoc.insert object e.1 e.2) [] := by
    rw [List.foldl_filterMap]
    unfold enterBound
    congr 1
    funext object ⟨key, x⟩
    dsimp only [cellAt]
    cases row.get? x.name <;> rfl
  rw [hinsert, hcells, Assoc.foldl_insert _ _ (by simpa [Assoc.keys] using nodup_cells he row)]
  rfl

/-- The type of an entity as a member, where it is asked for. -/
def typeMember (ns : Namespaces) (p : Part) (class_ : String) : Object :=
  if typeRequested p then [("@type", .str (ns.abbreviate class_))] else []

/-- A selected key that a condition fixes has a member in every row. -/
theorem contains_cells (htable : p.fragment.Table ns p.entity s class_)
    (he : p.entity.Tabular ns) (hrow : p.Answers row) {key : String} {v : Value}
    (hcondition : (key, .value v) ∈ p.entity.conditions) (hselected : key ∈ p.entity.selectedKeys)
    (hread : p.entity.isRead ns key = true) : Assoc.contains (cells ns p row) key = true := by
  have hid : key ≠ "@id" := by
    rintro rfl
    exact he.unpinned v hcondition
  obtain ⟨x, hx⟩ := htable.exists_var?_iff.mpr ⟨hselected, hread⟩
  obtain ⟨m, -, -, hmandatory⟩ := htable.states key x hx hid
  have hnarrows : (p.entity.condition? key).any Condition.narrows = true := by
    unfold Entity.condition?
    rw [Assoc.get?_of_mem he.conditions hcondition]
    rfl
  obtain ⟨b, hb⟩ := Option.isSome_iff_exists.mp <|
    hrow.bound _ (hmandatory hnarrows) x (by
      unfold Mapping.triple
      split <;> simp [Triple.vars, Term.asVar?])
  have hmem : (key, binding ns (knownKind? p.entity key) b) ∈ cells ns p row :=
    List.mem_filterMap.mpr ⟨key, hselected, by simp [cell, cellAt, hx, hb]⟩
  simp [Assoc.contains, Assoc.get?_of_mem (nodup_cells he row) hmem]

/-- **The object of a row** has what the row binds, and then the type. -/
theorem entityObject_eq (htable : p.fragment.Table ns p.entity s class_)
    (he : p.entity.Tabular ns) (hclass : p.entity.class? ns = some class_)
    (hfilled : ∀ key v, (key, .value v) ∈ p.entity.conditions → key ∈ p.entity.selectedKeys →
      p.entity.isRead ns key = true)
    (hrow : p.Answers row) :
    entityObject ns row p = cells ns p row ++ typeMember ns p class_ := by
  have hpinned : enterPinned ns p (cells ns p row) = cells ns p row := by
    unfold enterPinned
    refine List.foldlRecOn (motive := fun object => object = cells ns p row) _ _ rfl ?_
    rintro _ rfl ⟨key, c⟩ hentry
    cases c with
    | shared | related | computed => rfl
    | value v =>
        dsimp only
        by_cases hselected : key ∈ p.entity.selectedKeys
        · have hthere := contains_cells htable he hrow hentry hselected
            (hfilled key v hentry hselected)
          simp [hthere]
        · simp [htable.selected, hselected]
  have htype : enterClass ns p (cells ns p row) = cells ns p row ++ typeMember ns p class_ := by
    have hnone := get?_cells_type htable row
    unfold enterClass typeMember
    cases hrequested : typeRequested p with
    | false => simp
    | true =>
        simp [he.unresolved, Assoc.contains, hnone, hclass,
          Assoc.insert_of_not_mem (Assoc.get?_eq_none_iff.mp hnone)]
  unfold entityObject
  dsimp only
  rw [enterBound_eq htable he, htable.uncomputed]
  exact (congrArg (enterClass ns p) hpinned).trans htype

/-! ## Objects of nodes -/

/-- The member that a statement becomes in the object of a node. -/
def writtenMember (ctx : Context) (entry : String × Binding) : String × Value :=
  Node.compactProperty ctx entry.1 [entry.2.toValue]

/-- The members that the statements of a row become. -/
def writtenMembers (ctx : Context) (p : Part) (row : Row) : Object :=
  (p.fragment.statements.filterMap (Triple.said? row)).map (writtenMember ctx)

section

variable {ctx : Context} (hspells : ctx.Spells ns p.entity.schema) (hns : ns.Plain)
  (hs : p.entity.schema.Plain ns class_) (he : p.entity.Tabular ns)
  (htable : p.fragment.Table ns p.entity s class_)

include hspells hns hs he in
/-- A statement is written under the name of its key. -/
theorem writtenMember_eq {key : String} {m : Mapping} (hm : p.entity.reads? ns key = some m) :
    ∃ d : Definition, d.StandsFor (p.entity.schema.kindOf key) m.iri ∧
      ∀ b, writtenMember ctx (m.iri, b) = (key, Node.compactValue ctx d.coercion b.toValue) := by
  obtain ⟨-, d, hterm, hd⟩ := hspells.termFor?_eq hns hs he.distinct
    (Entity.reads?_eq_some.mp hm).2.2
  refine ⟨d, hd, fun b => ?_⟩
  simp [writtenMember, Node.compactProperty, hterm, Node.alwaysArray, hd.single, Value.ofItems]

include hs htable in
/-- What the statements of a row say is said for keys that can be read. -/
theorem mem_said {entry : String × Binding} :
    entry ∈ p.fragment.statements.filterMap (Triple.said? row) ↔ ∃ key m x b,
      p.entity.reads? ns key = some m ∧ m.triple (.var s) (.var x) ∈ p.fragment.statements ∧
        row.get? x.name = some b ∧ entry = (m.iri, b) := by
  have hsaid : ∀ {key : String} {m : Mapping} (x : Var), p.entity.reads? ns key = some m →
      (m.triple (.var s) (.var x)).said? row = (row.get? x.name).map fun b => (m.iri, b) := by
    intro key m x hm
    obtain ⟨w, rfl, -⟩ := Context.Spells.plainPredicate hs (Entity.reads?_eq_some.mp hm).2.2
    rfl
  constructor
  · intro h
    obtain ⟨t, ht, hsays⟩ := List.mem_filterMap.mp h
    obtain ⟨key, m, x, hm, rfl⟩ := htable.stated t ht
    rw [hsaid x hm] at hsays
    obtain ⟨b, hb, rfl⟩ := Option.map_eq_some_iff.mp hsays
    exact ⟨key, m, x, b, hm, ht, hb, rfl⟩
  · rintro ⟨key, m, x, b, hm, ht, hb, rfl⟩
    exact List.mem_filterMap.mpr ⟨_, ht, by rw [hsaid x hm, hb]; rfl⟩

include hspells hns hs he htable in
/-- Each statement of a row has a name of its own. -/
theorem nodup_writtenMembers : (writtenMembers ctx p row).keys.Nodup := by
  have hnodup := Part.nodup_said htable row
  unfold writtenMembers Assoc.keys
  rw [List.map_map]
  refine hnodup.of_map.map_on ?_
  intro entry hentry entry' hentry' hsame
  refine List.inj_on_of_nodup_map hnodup hentry hentry' ?_
  obtain ⟨key, m, _, b, hm, _, _, rfl⟩ := (mem_said hs htable).mp hentry
  obtain ⟨key', m', _, b', hm', _, _, rfl⟩ := (mem_said hs htable).mp hentry'
  obtain ⟨_, _, hmember⟩ := writtenMember_eq hspells hns hs he hm
  obtain ⟨_, _, hmember'⟩ := writtenMember_eq hspells hns hs he hm'
  simp only [Function.comp_apply, hmember, hmember'] at hsame
  subst hsame
  rw [hm] at hm'
  exact congrArg Mapping.iri (Option.some.inj hm')

include hspells hns hs he htable in
/-- Under the name of a key there is only what a statement about the key says. -/
theorem said_of_written {key : String} {v : Value}
    (h : (writtenMembers ctx p row).get? key = some v) : ∃ m x b,
      p.entity.reads? ns key = some m ∧ m.triple (.var s) (.var x) ∈ p.fragment.statements ∧
        row.get? x.name = some b := by
  obtain ⟨entry, hsaid, hmember⟩ := List.mem_map.mp (Assoc.mem_of_get? h)
  obtain ⟨key', m, x, b, hm, ht, hb, rfl⟩ := (mem_said hs htable).mp hsaid
  obtain ⟨_, _, hwritten⟩ := writtenMember_eq hspells hns hs he hm
  rw [hwritten] at hmember
  obtain ⟨rfl, -⟩ := Prod.mk.inj hmember
  exact ⟨m, x, b, hm, ht, hb⟩

include hspells hns hs he htable in
/-- The statement about a key is written under its name. -/
theorem written_of_said (hrow : p.Answers row) {key : String} {m : Mapping} {x : Var}
    {b : Binding} (hx : p.fragment.props.var? key = some x) (hid : key ≠ "@id")
    (hm : p.entity.reads? ns key = some m)
    (ht : m.triple (.var s) (.var x) ∈ p.fragment.statements) (hb : row.get? x.name = some b) :
    ∃ v, (writtenMembers ctx p row).get? key = some v ∧
      coerce v (p.entity.schema.kindOf key) =
        binding ns (some (p.entity.schema.kindOf key)) b := by
  obtain ⟨d, hd, hwritten⟩ := writtenMember_eq hspells hns hs he hm
  have hmem : (key, Node.compactValue ctx d.coercion b.toValue) ∈ writtenMembers ctx p row := by
    rw [← hwritten b]
    exact List.mem_map_of_mem ((mem_said hs htable).mpr ⟨key, m, x, b, hm, ht, hb, rfl⟩)
  exact ⟨_, Assoc.get?_of_mem (nodup_writtenMembers hspells hns hs he htable) hmem,
    coerce_compactValue (hspells.compactId_eq hns hs) (he.isArray_kindOf key) hd
      (hrow.typed (key, x) (Assoc.mem_of_get? hx) hid b hb)⟩

include hspells hns hs he htable in
/-- A selected key has in the object of a node what the row has for it. -/
theorem coerce_writtenMembers (hrow : p.Answers row) {key : String}
    (hselected : key ∈ p.entity.selectedKeys) (hword : Schema.isKeyword key = false) :
    ((writtenMembers ctx p row).get? key).map
        (fun v => (key, coerce v (p.entity.schema.kindOf key))) = cell ns p row key := by
  have hid : key ≠ "@id" := by
    rintro rfl
    simp [Schema.isKeyword] at hword
  cases hx : p.fragment.props.var? key with
  | none =>
      have hnone : (writtenMembers ctx p row).get? key = none := by
        rw [Option.eq_none_iff_forall_ne_some]
        intro v hv
        obtain ⟨m, -, -, hm, -, -⟩ := said_of_written hspells hns hs he htable hv
        obtain ⟨x, hx'⟩ := htable.exists_var?_iff.mpr ⟨hselected, by simp [Entity.isRead, hm]⟩
        simp [hx] at hx'
      simp [cell, hx, hnone]
  | some x =>
      obtain ⟨m, hm, ht, -⟩ := htable.states key x hx hid
      cases hb : row.get? x.name with
      | none =>
          have hnone : (writtenMembers ctx p row).get? key = none := by
            rw [Option.eq_none_iff_forall_ne_some]
            intro v hv
            obtain ⟨m', x', b, hm', ht', hb'⟩ := said_of_written hspells hns hs he htable hv
            obtain rfl : m' = m := Option.some.inj (hm'.symm.trans hm)
            have hsame : m'.triple (.var s) (.var x') = m'.triple (.var s) (.var x) :=
              List.inj_on_of_nodup_map htable.functional ht' ht (by
                simp only [Mapping.triple_predicate])
            rw [← Mapping.triple_var_inj hsame, hb'] at hb
            cases hb
          simp [cell, cellAt, hx, hb, hnone]
      | some b =>
          obtain ⟨v, hv, hcoerce⟩ := written_of_said hspells hns hs he htable hrow hx hid hm ht hb
          simp [cell, cellAt, hx, hb, hv, hcoerce, knownKind?_of_reads hm]

include hspells hns hs he htable in
/-- **The object of a node** has its identity, its class, and what statements say. -/
theorem compact_nodeOf {iri : String} (hsubject : p.subjectIn? row = some iri) :
    (p.nodeOf class_ row).compact ctx =
      [("@id", .str (ns.abbreviate iri)), ("@type", .str (ns.abbreviate class_))] ++
        writtenMembers ctx p row := by
  have hwords : ∀ key ∈ Assoc.keys (writtenMembers ctx p row), Schema.isKeyword key = false := by
    intro key hkey
    obtain ⟨⟨_, v⟩, hmember, rfl⟩ := List.mem_map.mp hkey
    obtain ⟨m, -, -, hm, -, -⟩ := said_of_written hspells hns hs he htable
      (Assoc.get?_of_mem (nodup_writtenMembers hspells hns hs he htable) hmember)
    exact (Entity.reads?_eq_some.mp hm).1
  have hnodup : (["@id", "@type"] ++ Assoc.keys (writtenMembers ctx p row)).Nodup := by
    refine List.nodup_append.mpr
      ⟨by decide, nodup_writtenMembers hspells hns hs he htable, ?_⟩
    rintro word hword _ hkey rfl
    have hplain := hwords word hkey
    rcases List.mem_pair.mp hword with rfl | rfl <;> simp [Schema.isKeyword] at hplain
  have hinsert := Assoc.foldl_insert (writtenMembers ctx p row)
    [("@id", .str (ns.abbreviate iri)), ("@type", .str (ns.abbreviate class_))] hnodup
  rw [← hinsert]
  simp only [Node.compact, Part.nodeOf, hsubject, writtenMembers, List.foldl_map,
    Option.getD_some, hspells.compactId_eq hns hs, List.isEmpty_cons, List.map_cons, List.map_nil,
    hspells.compactVocab_eq hns hs, Value.ofItems]
  rfl

include hspells hns hs he htable in
/-- The value of a selected key is entered as the row has it. -/
theorem enterValue_selected (hrow : p.Answers row) {iri : String}
    (hsubject : p.subjectIn? row = some iri) (nodes : NodeMap) {key : String}
    (hselected : key ∈ p.entity.selectedKeys) (hword : Schema.isKeyword key = false)
    (object : Object) :
    enterValue object key (p.entity.schema.kindOf key)
        (selectedValue? ns nodes ⟨p, ctx⟩ (p.nodeOf class_ row)
          ((p.nodeOf class_ row).compact ctx) key) =
      (cell ns p row key).elim object fun e => object.insert e.1 e.2 := by
  have hvalue : selectedValue? ns nodes ⟨p, ctx⟩ (p.nodeOf class_ row)
      ((p.nodeOf class_ row).compact ctx) key = (writtenMembers ctx p row).get? key := by
    have hget : ((p.nodeOf class_ row).compact ctx).get? key =
        (writtenMembers ctx p row).get? key := by
      obtain ⟨hid, htype⟩ : "@id" ≠ key ∧ "@type" ≠ key := by
        constructor <;> rintro rfl <;> simp [Schema.isKeyword] at hword
      rw [compact_nodeOf hspells hns hs he htable hsubject]
      simp [Assoc.get?, hid, htype]
    unfold selectedValue?
    cases hm : p.entity.mapping? ns key with
    | none => exact hget
    | some m =>
        obtain ⟨w, rfl, -⟩ := Context.Spells.plainPredicate hs hm
        exact hget
  rw [hvalue, ← coerce_writtenMembers hspells hns hs he htable hrow hselected hword]
  cases (writtenMembers ctx p row).get? key <;> rfl

include hspells hns hs he htable in
/-- **The view of a node** has its identity, its class where that is asked for, and what
the row has for the other selected keys. -/
theorem shape_eq (hrow : p.Answers row) {iri : String} (hsubject : p.subjectIn? row = some iri)
    (nodes : NodeMap) :
    shape ns nodes ⟨p, ctx⟩ (p.nodeOf class_ row) =
      [("@id", .str (ns.abbreviate iri))] ++ typeMember ns p class_ ++
        (p.entity.selectedKeys.filter (!Schema.isKeyword ·)).filterMap (cell ns p row) := by
  have hwords : (([("@id", .str (ns.abbreviate iri))] ++ typeMember ns p class_ : Object).keys ++
      Assoc.keys ((p.entity.selectedKeys.filter (!Schema.isKeyword ·)).filterMap
        (cell ns p row))).Nodup := by
    have hkeys := Assoc.keys_filterMap (cell_key ns p row)
      (p.entity.selectedKeys.filter (!Schema.isKeyword ·))
    refine List.nodup_append.mpr
      ⟨by unfold typeMember; split <;> simp [Assoc.keys], (he.selected.filter _).sublist hkeys, ?_⟩
    rintro word hword _ hkey rfl
    have hplain := (List.mem_filter.mp (hkeys.subset hkey)).2
    have hcases : word = "@id" ∨ word = "@type" := by
      unfold typeMember at hword
      split at hword <;> simp [Assoc.keys] at hword <;> simp [hword]
    rcases hcases with rfl | rfl <;> simp [Schema.isKeyword] at hplain
  have hopening : ((((p.nodeOf class_ row).compact ctx).get? "@id").map
        fun v => ("@id", v)).toList ++
      (if typeRequested p then ((((p.nodeOf class_ row).compact ctx).get? "@type").map
        fun v => ("@type", v)).toList else []) =
      [("@id", Value.str (ns.abbreviate iri))] ++ typeMember ns p class_ := by
    rw [compact_nodeOf hspells hns hs he htable hsubject]
    unfold typeMember
    split <;> rfl
  have hselected : ∀ (object : Object),
      ∀ key ∈ p.entity.selectedKeys.filter (!Schema.isKeyword ·),
        enterValue object key (p.entity.schema.kindOf key)
            (selectedValue? ns nodes ⟨p, ctx⟩ (p.nodeOf class_ row)
              ((p.nodeOf class_ row).compact ctx) key) =
          (cell ns p row key).elim object fun e => object.insert e.1 e.2 := by
    intro object key hkey
    obtain ⟨hmem, hword⟩ := List.mem_filter.mp hkey
    exact enterValue_selected hspells hns hs he htable hrow hsubject nodes hmem
      (by simpa using hword) object
  rw [← Assoc.foldl_insert _ _ hwords, List.foldl_filterMap]
  unfold shape
  dsimp only
  rw [htable.uncomputed, hopening, htable.selected]
  refine (List.foldl_ext _ _ _ hselected).trans ?_
  congr 1
  funext object key
  cases cell ns p row key <;> rfl

end

end Decode

end ObjectGraph
