import Mathlib.Data.List.Basic
import ObjectGraph.Proofs.Compile.Tables

/-!
# The graph that rows make of a template

A CONSTRUCT writes its template once for every row and leaves out the triples that
have an unbound variable (`Sparql.constructed`).  The rows of a table have each their
own subject, so the graph has one node for each of them, in their order: it has the
class of the entity as its only type, and for each statement whose variable the row
binds the property with that one value (`Part.ofQuads_constructed`).
-/

namespace ObjectGraph

open Sparql (Var Term Triple)

/-! ## Instances of templates -/

namespace Binding

/-- A bound value as a term of a quad. -/
def toTerm (b : Binding) : QuadTerm :=
  if b.isIri then .named b.value
  else if b.isBlank then .blank b.value
  else
    match b.language with
    | some tag => .tagged b.value tag
    | none => .literal b.value b.datatype

/-- A bound value as a value of a node. -/
def toValue (b : Binding) : NodeValue :=
  if b.isIri then .iri b.value
  else if b.isBlank then .blank (blankId b.value)
  else
    match b.language with
    | some tag => .literal b.value (some Vocabulary.rdfLangString) (some tag |>.filter (· ≠ ""))
    | none => .literal b.value b.datatype none

/-- A term of a quad is read as the value it is. -/
theorem ofTerm_toTerm (b : Binding) : NodeValue.ofTerm b.toTerm = .ok b.toValue := by
  unfold toTerm toValue
  split
  · rfl
  · split
    · rfl
    · split
      · rfl
      · cases b.datatype <;> rfl

end Binding

namespace Sparql

/-- A literal as a term of a quad. -/
def Literal.toTerm : Literal → QuadTerm
  | .plain text => .literal text none
  | .tagged text language => .tagged text language
  | .typed text datatype => .literal text (some datatype)
  | .boolean b => .literal (if b then "true" else "false") (some Vocabulary.xsdBoolean)

/-- What a position of a template becomes in a row; a template has no blank nodes but
those that are in the data. -/
def Term.under? (row : Row) : Term → Option QuadTerm
  | .var x => (row.get? x.name).map Binding.toTerm
  | .iri i => some (.named i)
  | .literal l => some l.toTerm
  | .blank label => some (.blank label)

/-- What the predicate of a template becomes in a row. -/
def Predicate.under? (row : Row) : Predicate → Option QuadTerm
  | .var x => (row.get? x.name).map Binding.toTerm
  | .iri i => some (.named i)
  | .path _ => none

/-- The quad that a triple of a template becomes in a row: none if a variable is not
bound, or if the subject were a literal or the predicate no IRI. -/
def Triple.under? (row : Row) (t : Triple) : Option Quad := do
  let subject ← t.subject.under? row
  let predicate ← t.predicate.under? row
  let object ← t.object.under? row
  if subject.kind = .literal ∨ predicate.kind ≠ .namedNode then none
  else some ⟨subject, predicate, object, none⟩

/-- The quads of a CONSTRUCT with a template, row by row. -/
def constructed (template : List Triple) (rows : List Row) : List Quad :=
  rows.flatMap fun row => template.filterMap (Triple.under? row)

/-- What a statement says in a row: a predicate and its value. -/
def Triple.said? (row : Row) (t : Triple) : Option (String × Binding) :=
  match t.predicate, t.object with
  | .iri predicate, .var x => (row.get? x.name).map fun b => (predicate, b)
  | _, _ => none

end Sparql

/-- The quad that gives a named subject a bound value. -/
def Quad.ofBinding (subject : String) (entry : String × Binding) : Quad :=
  ⟨.named subject, .named entry.1, entry.2.toTerm, none⟩

/-- Under a row that binds the subject to an IRI a statement is written if its variable
is bound. -/
theorem Mapping.triple_under? {m : Mapping} (hm : m.reverse = false) {row : Row} {s x : Var}
    {b : Binding} (hs : row.get? s.name = some b) (hb : b.isIri = true) :
    (m.triple (.var s) (.var x)).under? row =
      ((m.triple (.var s) (.var x)).said? row).map (Quad.ofBinding b.value) := by
  have hterm : b.toTerm = .named b.value := by simp [Binding.toTerm, hb]
  unfold Mapping.triple Triple.under? Triple.said?
  rw [if_neg (by simp [hm])]
  cases hx : row.get? x.name <;>
    simp [Term.under?, Sparql.Predicate.under?, hs, hx, hterm, QuadTerm.named, Quad.ofBinding]

/-! ## Nodes of rows -/

namespace NodeMap

/-- What is said of a new subject makes a new node. -/
theorem add_new {nodes : NodeMap} {subject : String} (h : ∀ n ∈ nodes, n.id ≠ subject)
    (predicate : String) (v : NodeValue) :
    add subject predicate v nodes = nodes ++ [(Node.empty subject).add predicate v] := by
  induction nodes with
  | nil => rfl
  | cons n rest ih =>
      obtain ⟨hn, hrest⟩ := List.forall_mem_cons.mp h
      simp [add, hn, ih hrest]

/-- What is said of the last subject goes to its node. -/
theorem add_last {nodes : NodeMap} {subject : String} (h : ∀ n ∈ nodes, n.id ≠ subject)
    {last : Node} (hlast : last.id = subject) (predicate : String) (v : NodeValue) :
    add subject predicate v (nodes ++ [last]) = nodes ++ [last.add predicate v] := by
  induction nodes with
  | nil => simp [add, hlast]
  | cons n rest ih =>
      obtain ⟨hn, hrest⟩ := List.forall_mem_cons.mp h
      simp [add, hn, ih hrest]

/-- A quad adds its value to its subject. -/
theorem addQuad_ofBinding (nodes : NodeMap) (subject : String) (entry : String × Binding) :
    addQuad nodes (.ofBinding subject entry) =
      .ok (nodes.add subject entry.1 entry.2.toValue) := by
  simp [addQuad, Quad.ofBinding, subjectId, QuadTerm.named, Binding.ofTerm_toTerm, bind,
    Except.bind]

end NodeMap

namespace Node

/-- A predicate but that of types gives a property its first value. -/
theorem add_new {n : Node} {predicate : String} (htype : predicate ≠ Vocabulary.rdfType)
    (hnew : predicate ∉ n.properties.keys) (v : NodeValue) :
    n.add predicate v = { n with properties := n.properties ++ [(predicate, [v])] } := by
  have hvalue : n.addValue predicate v =
      { n with properties := n.properties ++ [(predicate, [v])] } := by
    simp [addValue, values, Assoc.get?_eq_none_iff.mpr hnew, Assoc.insert_of_not_mem hnew]
  rw [← hvalue]
  cases v with
  | iri type => simp [add, htype]
  | blank | literal => rfl

end Node

/-- Quads about the last node, each with a predicate of its own, become its properties. -/
theorem NodeMap.foldlM_addQuad {nodes : NodeMap} {last : Node}
    (hnodes : ∀ n ∈ nodes, n.id ≠ last.id) {entries : List (String × Binding)}
    (htype : ∀ entry ∈ entries, entry.1 ≠ Vocabulary.rdfType)
    (hnodup : (last.properties.keys ++ entries.map (·.1)).Nodup) :
    (entries.map (Quad.ofBinding last.id)).foldlM addQuad (nodes ++ [last]) =
      .ok (nodes ++ [{ last with
        properties := last.properties ++ entries.map fun e => (e.1, [e.2.toValue]) }]) := by
  induction entries generalizing last with
  | nil => simp [pure, Except.pure]
  | cons entry rest ih =>
      obtain ⟨hentry, hrest⟩ := List.forall_mem_cons.mp htype
      have hnew : entry.1 ∉ last.properties.keys := fun hmem =>
        (List.nodup_append.mp hnodup).2.2 entry.1 hmem entry.1 List.mem_cons_self rfl
      have hnodup' : (Assoc.keys (last.properties ++ [(entry.1, [entry.2.toValue])]) ++
          rest.map (·.1)).Nodup := by simpa [Assoc.keys] using hnodup
      rw [List.map_cons, List.foldlM_cons, addQuad_ofBinding, add_last hnodes rfl,
        Node.add_new hentry hnew]
      have hrun := @ih ⟨last.id, last.types, last.properties ++ [(entry.1, [entry.2.toValue])]⟩
        hnodes hrest hnodup'
      refine hrun.trans ?_
      simp

namespace Part

/-- The node of a row: the subject with a class and with what statements say of it. -/
def nodeOf (p : Part) (class_ : String) (row : Row) : Node :=
  ⟨(p.subjectIn? row).getD "", [class_],
    (p.fragment.statements.filterMap (Triple.said? row)).map fun e => (e.1, [e.2.toValue])⟩

variable {ns : Namespaces} {p : Part} {s : Var} {class_ : String}

/-- The quads of a row: its subject has the class, and what the statements say. -/
theorem under?_template (htable : p.fragment.Table ns p.entity s class_)
    (hforward : ∀ key m, p.entity.reads? ns key = some m → m.reverse = false) {row : Row}
    {iri : String} (hsubject : p.subjectIn? row = some iri) :
    p.fragment.template.filterMap (Triple.under? row) =
      ⟨.named iri, .named Vocabulary.rdfType, .named class_, none⟩ ::
        (p.fragment.statements.filterMap (Triple.said? row)).map (Quad.ofBinding iri) := by
  obtain ⟨b, hb, hiri, hvalue⟩ :
      ∃ b, row.get? s.name = some b ∧ b.isIri = true ∧ b.value = iri := by
    unfold subjectIn? at hsubject
    rw [htable.subject] at hsubject
    obtain ⟨b, hb, hvalue⟩ := Option.map_eq_some_iff.mp hsubject
    obtain ⟨hb, hiri⟩ := Option.filter_eq_some_iff.mp hb
    exact ⟨b, hb, hiri, hvalue⟩
  have htype : (exactType (.var s) class_).under? row =
      some ⟨.named iri, .named Vocabulary.rdfType, .named class_, none⟩ := by
    have hterm : b.toTerm = .named iri := by simp [Binding.toTerm, hiri, hvalue]
    simp [exactType, Triple.ofType, Triple.under?, Term.under?, Sparql.Predicate.under?, hb, hterm,
      QuadTerm.named]
  rw [htable.template, List.filterMap_cons_some htype, List.map_filterMap]
  congr 1
  refine List.filterMap_congr fun t ht => ?_
  obtain ⟨key, m, x, hm, rfl⟩ := htable.stated t ht
  rw [Mapping.triple_under? (hforward key m hm) hb hiri, hvalue]

/-- What the statements of a table say in a row is said with a predicate of its own. -/
theorem nodup_said (htable : p.fragment.Table ns p.entity s class_) (row : Row) :
    ((p.fragment.statements.filterMap (Triple.said? row)).map (·.1)).Nodup := by
  have hpredicate : ∀ {t : Triple} {entry : String × Binding}, t.said? row = some entry →
      t.predicate = .iri entry.1 := by
    intro t entry h
    unfold Triple.said? at h
    split at h
    next predicate x hp _ =>
      obtain ⟨b, -, rfl⟩ := Option.map_eq_some_iff.mp h
      exact hp
    next => cases h
  rw [List.Nodup, List.pairwise_map, List.pairwise_filterMap]
  refine (List.pairwise_map.mp htable.functional).imp fun hne entry hentry entry' hentry' heq => ?_
  exact hne ((hpredicate hentry).trans (heq ▸ (hpredicate hentry').symm))

/-- The quads of a row with a new subject add its node. -/
theorem foldlM_row (htable : p.fragment.Table ns p.entity s class_)
    (hpredicates : ∀ key m, p.entity.reads? ns key = some m →
      m.reverse = false ∧ m.iri ≠ Vocabulary.rdfType)
    {row : Row} {iri : String} (hsubject : p.subjectIn? row = some iri) {nodes : NodeMap}
    (hnew : ∀ n ∈ nodes, n.id ≠ iri) :
    (p.fragment.template.filterMap (Triple.under? row)).foldlM NodeMap.addQuad nodes =
      .ok (nodes ++ [p.nodeOf class_ row]) := by
  have htype : NodeMap.addQuad nodes
      ⟨.named iri, .named Vocabulary.rdfType, .named class_, none⟩ =
        .ok (nodes ++ [⟨iri, [class_], []⟩]) := by
    simp [NodeMap.addQuad, NodeMap.subjectId, QuadTerm.named, NodeValue.ofTerm, bind, Except.bind,
      NodeMap.add_new hnew, Node.add, Node.addType, Node.empty]
  have hsaid : ∀ entry ∈ p.fragment.statements.filterMap (Triple.said? row),
      entry.1 ≠ Vocabulary.rdfType := by
    intro entry hentry
    obtain ⟨t, ht, hsays⟩ := List.mem_filterMap.mp hentry
    obtain ⟨key, m, x, hm, rfl⟩ := htable.stated t ht
    obtain ⟨hforward, hne⟩ := hpredicates key m hm
    unfold Triple.said? Mapping.triple at hsays
    rw [if_neg (by simp [hforward])] at hsays
    obtain ⟨b, -, rfl⟩ := Option.map_eq_some_iff.mp hsays
    exact hne
  have hrun := @NodeMap.foldlM_addQuad nodes ⟨iri, [class_], []⟩ hnew _ hsaid
    (by simpa [Assoc.keys] using nodup_said htable row)
  rw [under?_template htable (fun key m hm => (hpredicates key m hm).1) hsubject,
    List.foldlM_cons, htype]
  refine hrun.trans ?_
  simp [nodeOf, hsubject]

/-- **The graph of a table.**  Rows with subjects of their own make one node each. -/
theorem ofQuads_constructed (htable : p.fragment.Table ns p.entity s class_)
    (hpredicates : ∀ key m, p.entity.reads? ns key = some m →
      m.reverse = false ∧ m.iri ≠ Vocabulary.rdfType)
    {rows : List Row} (hsubjects : ∀ row ∈ rows, ∃ iri, p.subjectIn? row = some iri)
    (hdistinct : (rows.map p.subjectIn?).Nodup) :
    NodeMap.ofQuads (Sparql.constructed p.fragment.template rows) =
      .ok (rows.map (p.nodeOf class_)) := by
  have hrows : ∀ (rows : List Row) (nodes : NodeMap),
      (∀ row ∈ rows, ∃ iri, p.subjectIn? row = some iri) → (rows.map p.subjectIn?).Nodup →
      (∀ row ∈ rows, ∀ n ∈ nodes, p.subjectIn? row ≠ some n.id) →
      (Sparql.constructed p.fragment.template rows).foldlM NodeMap.addQuad nodes =
        .ok (nodes ++ rows.map (p.nodeOf class_)) := by
    intro rows
    induction rows with
    | nil =>
        intro nodes _ _ _
        simp [Sparql.constructed, pure, Except.pure]
    | cons row rest ih =>
        intro nodes hsubjects hdistinct hnew
        obtain ⟨⟨iri, hiri⟩, hsubjects⟩ := List.forall_mem_cons.mp hsubjects
        obtain ⟨hnewRow, hnewRest⟩ := List.forall_mem_cons.mp hnew
        obtain ⟨hapart, hdistinct⟩ := List.nodup_cons.mp hdistinct
        have hunused : ∀ n ∈ nodes, n.id ≠ iri := fun n hn heq => hnewRow n hn (heq ▸ hiri)
        have hstep := foldlM_row htable hpredicates hiri hunused
        have hnext : ∀ other ∈ rest, ∀ n ∈ nodes ++ [p.nodeOf class_ row],
            p.subjectIn? other ≠ some n.id := by
          intro other hother n hn
          rcases List.mem_append.mp hn with hn | hn
          · exact hnewRest other hother n hn
          · rintro heq
            obtain rfl := List.mem_singleton.mp hn
            refine hapart (List.mem_map.mpr ⟨other, hother, heq.trans ?_⟩)
            simp [nodeOf, hiri]
        have hrest := ih (nodes ++ [p.nodeOf class_ row]) hsubjects hdistinct hnext
        unfold Sparql.constructed at hrest ⊢
        rw [List.flatMap_cons, List.foldlM_append, hstep]
        refine hrest.trans ?_
        simp
  exact hrows rows [] hsubjects hdistinct (by simp)

end Part

end ObjectGraph
