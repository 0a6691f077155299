import ObjectGraph.Proofs.Compile.SharedNames
import ObjectGraph.Proofs.Sparql.Atoms

/-!
# Where the atoms of a fragment come from

Apart from a few IRIs of the vocabulary, every IRI of a fragment is one that its entity
places there (`Entity.Places`): its class, a predicate, its service, the local IRI of a
computed key, and the texts of conditions and of the triples of computed keys that stand for
IRIs.  These go through the namespace map and nothing else, so what a condition compares as a
term has the IRI that its value refers to, and what it compares as a text has none
(`Filter.all_related`).  Every variable has a name, as names are drawn or joined, and there is
neither a language tag nor a blank node (`Entity.Admits`).  The steps of a draft keep this, one
by one (`Fragment.Within.compile`).
-/

namespace ObjectGraph

open Allocator (IsName)
open Json (Value)
open Sparql (Atom Var Term Triple Expression Pattern)

/-- The IRIs that queries have of themselves. -/
def Vocabulary.inQueries : List String :=
  [rdfType, subClassOf, xsdInteger, xsdDecimal, xsdDateTime]

/-- Whether a relation compares texts, not terms. -/
def Relation.isTextual : Relation → Bool
  | .contains | .notContains | .startWith | .endWith | .regEx => true
  | _ => false

/-- A value of a key that stands for an IRI, and the text of the IRI. -/
structure Entity.Refers (e : Entity) (key : String) (v : Value) (s : String) : Prop where
  kind : (e.schema.kindOf key).isReference = true
  text : referenceIri? v = some s

/-- The IRIs that an entity places in queries. -/
inductive Entity.Places (ns : Namespaces) (config : Config) (e : Entity) : String → Prop
  | class_ {i : String} (h : e.schema.classIri? ns = some i) : Places ns config e i
  | predicate {key : String} {m : Mapping} (h : e.mapping? ns key = some m) :
      Places ns config e m.iri
  | service {s : String} (h : e.service = some s) : Places ns config e (ns.expand s)
  | condition {key s : String} {c : Condition} {relation : Relation} {values : List Value}
      {v : Value} (hcondition : (key, c) ∈ e.conditions)
      (hcompared : c.comparison? = some (relation, values)) (hterms : relation.isTextual = false)
      (hv : v ∈ values) (hrefers : e.Refers key v s) : Places ns config e (ns.expand s)
  | computed {key : String} {relation : BindRelation} {triples : List BindTriple}
      (hcondition : (key, .computed relation triples) ∈ e.conditions) :
      Places ns config e (config.localIri key)
  | position {key s : String} {relation : BindRelation} {triples : List BindTriple}
      {t : BindTriple} (hcondition : (key, .computed relation triples) ∈ e.conditions)
      (ht : t ∈ triples) (hs : s = t.subject ∨ s = t.predicate ∨ s = t.object)
      (hfree : Sparql.sharedName? s = none) : Places ns config e (ns.expand s)
  | data {key s : String} {v item : Value} (hdata : (key, v) ∈ e.data)
      (hitem : item ∈ v.itemsOrSelf) (hrefers : e.Refers key item s) :
      Places ns config e (ns.expand s)

/-- The IRIs that can stand in the queries of an entity. -/
def Entity.Uses (ns : Namespaces) (config : Config) (e : Entity) (i : String) : Prop :=
  i ∈ Vocabulary.inQueries ∨ e.Places ns config i

/-- The atoms that can stand in the queries of an entity. -/
def Entity.Admits (ns : Namespaces) (config : Config) (e : Entity) : Atom → Prop
  | .var x => IsName x.name
  | .iri i => e.Uses ns config i
  | .tag _ | .label _ => False

/-! ## Values and filters -/

/-- A value that stands for an IRI is no array. -/
theorem referenceIri?_items {v : Value} {s : String} (h : referenceIri? v = some s) :
    v.itemsOrSelf = [v] := by
  cases v with
  | arr items => cases h
  | null | bool | num | str | obj => rfl

section

variable {P : Atom → Prop} {ns : Namespaces} {kind : Kind} {x : Var}

section

variable (hwords : ∀ i ∈ Vocabulary.inQueries, P (.iri i))

include hwords

/-- A literal of the value's own type has a datatype of the vocabulary, if any. -/
theorem Encode.all_byType (v : Value) : (Encode.byType v).All P := by
  cases v with
  | num n => cases n <;> exact hwords _ (by decide)
  | null | bool | str | arr | obj => trivial

/-- A numeral has a datatype of the vocabulary. -/
theorem Encode.all_numeric {datatype : String} (h : datatype ∈ Vocabulary.inQueries) (v : Value) :
    (Encode.numeric datatype v).All P := by
  unfold Encode.numeric
  split
  · exact hwords _ h
  · exact hwords _ h
  · exact Encode.all_byType hwords v

theorem Encode.all_boolean (v : Value) : (Encode.boolean v).All P := by
  unfold Encode.boolean
  split
  · trivial
  · split
    · trivial
    · split <;> trivial
  · exact Encode.all_byType hwords v

/-- The term of a value has an IRI of the vocabulary, or is the IRI that the value refers
to. -/
theorem Encode.all_value {v : Value}
    (hrefers : kind.isReference = true → ∀ s, referenceIri? v = some s → P (.iri (ns.expand s))) :
    (Encode.value ns kind v).All P := by
  induction kind with
  | array items ih => exact ih hrefers
  | iri | object =>
      unfold Encode.value
      split
      next s hs => exact hrefers rfl s hs
      next => exact Encode.all_byType hwords v
  | dateTime =>
      unfold Encode.value
      split
      next => exact hwords _ (by decide)
      next => exact Encode.all_byType hwords v
  | integer | number => exact Encode.all_numeric hwords (by decide) v
  | boolean => exact Encode.all_boolean hwords v
  | string => exact Encode.all_byType hwords v

end

/-- A term as an expression has the atoms of the term. -/
theorem Sparql.Term.all_ofTerm {t : Term} (h : t.All P) : (Expression.ofTerm t).All P := by
  cases t with
  | blank => trivial
  | var | iri | literal => exact h

/-- Expressions under an operator have the atoms of its operands. -/
theorem Sparql.Expression.all_fold? {op : Sparql.BinaryOp} {es : List Expression} {g : Expression}
    (h : Expression.fold? op es = some g) (hes : ∀ e ∈ es, e.All P) : g.All P := by
  cases es with
  | nil => cases h
  | cons e rest =>
      obtain rfl := Option.some.inj h
      obtain ⟨he, hrest⟩ := List.forall_mem_cons.mp hes
      exact List.foldlRecOn rest _ he fun d hd r hr => ⟨hd, hrest r hr⟩

namespace Filter

variable (hx : P (.var x))

include hx

/-- A comparison has its variable and the atoms of the term of the value. -/
theorem all_comparison {op : Sparql.BinaryOp} {v : Value} (h : (Encode.value ns kind v).All P) :
    (comparison op x ns kind v).All P :=
  ⟨hx, Sparql.Term.all_ofTerm h⟩

/-- A pattern for texts is a literal without a datatype. -/
theorem all_textTest (f : Sparql.Builtin) (args : List Value) : (textTest f x args).All P := by
  refine ⟨⟨hx, trivial⟩, Sparql.argumentsAll_iff.mpr fun e he => ?_⟩
  obtain ⟨v, -, rfl⟩ := List.mem_map.mp he
  cases v <;> trivial

/-- The filter of a relation has the IRIs of terms that it compares. -/
theorem all_related {relation : Relation} {values : List Value} {g : Expression}
    (hterms : relation.isTextual = false → ∀ v ∈ values, (Encode.value ns kind v).All P)
    (h : related x ns kind relation values = some g) : g.All P := by
  have hcompare : ∀ op, relation.isTextual = false → ∀ v ∈ values,
      (comparison op x ns kind v).All P := fun op hrelation v hv =>
    all_comparison hx (hterms hrelation v hv)
  have htest : ∀ f v, (textTest f x [v]).All P := fun f v => all_textTest hx f [v]
  cases relation with
  | equal | any | notEqual | notAny =>
      exact Expression.all_fold? h (List.forall_mem_map.mpr (hcompare _ rfl))
  | contains | startWith | endWith =>
      exact Expression.all_fold? h (List.forall_mem_map.mpr fun v _ => htest _ v)
  | notContains =>
      exact Expression.all_fold? h (List.forall_mem_map.mpr fun v _ => htest .contains v)
  | after | before =>
      obtain ⟨v, hv, rfl⟩ := Option.map_eq_some_iff.mp h
      exact hcompare _ rfl v (List.mem_of_head? hv)
  | between =>
      match values with
      | [] | [_] => cases h
      | low :: high :: _ =>
          obtain rfl := Option.some.inj h
          exact ⟨hcompare _ rfl low (by simp), hcompare _ rfl high (by simp)⟩
  | regEx =>
      cases values with
      | nil => cases h
      | cons v rest =>
          obtain rfl := Option.some.inj h
          exact all_textTest hx _ _
  | exist | notExist => cases h

end Filter

/-- The triple of a property has its predicate. -/
theorem Mapping.all_triple {m : Mapping} (hm : P (.iri m.iri)) {subject object : Term}
    (hsubject : subject.All P) (hobject : object.All P) : (m.triple subject object).All P := by
  unfold triple
  split
  · exact ⟨hobject, hm, hsubject⟩
  · exact ⟨hsubject, hm, hobject⟩

/-- A test for the triple of a property has the atoms of the triple. -/
theorem Mapping.all_test {m : Mapping} (hm : P (.iri m.iri)) (relation : Relation)
    {subject : Term} (hsubject : subject.All P) (hx : P (.var x)) :
    (m.test relation subject x).All P := by
  have hgroup : Sparql.groupAll P [.triples [m.triple subject (.var x)]] :=
    ⟨List.forall_mem_singleton.mpr (all_triple hm hsubject hx), trivial⟩
  unfold test
  split <;> exact hgroup

end

/-- The elements of an array of references are references. -/
theorem Kind.isReference_element (k : Kind) : k.element.isReference = k.isReference := by
  induction k with
  | array items ih => exact ih
  | iri | dateTime | integer | number | boolean | string | object => rfl

namespace Entity

variable {ns : Namespaces} {config : Config} {e : Entity} {key : String}

/-- What a condition compares has the IRIs that its values place. -/
theorem all_related {c : Condition} {relation : Relation} {values : List Value} {x : Var}
    {kind : Kind} {g : Expression} (hcondition : (key, c) ∈ e.conditions)
    (hcompared : c.comparison? = some (relation, values))
    (hkind : kind.isReference = (e.schema.kindOf key).isReference) (hx : IsName x.name)
    (h : Filter.related x ns kind relation values = some g) : g.All (e.Admits ns config) := by
  refine Filter.all_related hx (fun hterms v hv => ?_) h
  refine Encode.all_value (fun _ => .inl) fun hreference s hs => ?_
  exact .inr (.condition hcondition hcompared hterms hv ⟨hkind ▸ hreference, hs⟩)

/-- The identity and the type of the data are IRIs. -/
theorem uses_dataText? {s : String} (hkey : Schema.isKeyword key = true)
    (h : e.dataText? key = some s) : e.Uses ns config (ns.expand s) := by
  obtain ⟨v, hv, hs⟩ := Option.bind_eq_some_iff.mp h
  cases v with
  | str t =>
      obtain rfl := Option.some.inj hs
      have hkind : (e.schema.kindOf key).isReference = true := by
        rw [Schema.kindOf, if_pos hkey]
        rfl
      exact .inr (.data (Assoc.mem_of_get? hv) (List.mem_singleton_self _) ⟨hkind, rfl⟩)
  | null | bool | num | arr | obj => cases hs

/-- The predicate of a key can stand in the queries of its entity. -/
theorem uses_predicate {m : Mapping} (hm : e.mapping? ns key = some m) :
    e.Uses ns config m.iri :=
  .inr (.predicate hm)

/-- The filter of a condition compares with what its values place, or tests for the triple
of its key. -/
theorem all_conditionFilter {m : Mapping} {c : Condition}
    (hcondition : (key, c) ∈ e.conditions) (hm : e.mapping? ns key = some m) {subject : Term}
    (hsubject : subject.All (e.Admits ns config)) {x : Var} (hx : IsName x.name)
    {a : Allocator} :
    ∀ g ∈ (Draft.conditionFilter ns e subject m key x c a).1, g.All (e.Admits ns config) := by
  intro g hg
  unfold Draft.conditionFilter at hg
  cases c with
  | shared | computed => cases hg
  | value v =>
      dsimp only at hg
      rw [Filter.equality_eq] at hg
      exact all_related hcondition rfl (Kind.isReference_element _) hx hg
  | related relation values =>
      dsimp only at hg
      split at hg
      next =>
        rw [Draft.existence_eq] at hg
        obtain rfl := Option.some.inj hg
        exact Mapping.all_test (uses_predicate hm) relation hsubject (a.isName_fresh _)
      next hrelation =>
        refine all_related hcondition ?_ (Kind.isReference_element _) hx hg
        simp [Condition.comparison?, hrelation]

end Entity

/-! ## Fragments -/

namespace KeyVars

/-- A property holds of all variables of keys. -/
def All (P : Atom → Prop) (m : KeyVars) : Prop :=
  ∀ entry ∈ m.entries, P (.var entry.2)

variable {P : Atom → Prop} {m : KeyVars} {key : String} {x : Var}

/-- Entering a variable of which it holds keeps the property. -/
theorem All.insert (h : m.All P) (hx : P (.var x)) : (m.insert key x).All P := by
  intro entry hentry
  rcases mem_insert hentry with hold | rfl
  · exact h entry hold
  · exact hx

theorem All.var? (h : m.All P) (hx : m.var? key = some x) : P (.var x) :=
  h _ (Assoc.mem_of_get? hx)

theorem All.vars (h : m.All P) : ∀ x ∈ m.vars, P (.var x) :=
  List.forall_mem_map.mpr h

end KeyVars

/-- A property holds of all atoms of a fragment. -/
structure Fragment.Within (P : Atom → Prop) (f : Fragment) : Prop where
  subject : f.subject.All P
  mandatory : ∀ t ∈ f.mandatory, t.All P
  optional : ∀ t ∈ f.optional, t.All P
  filters : ∀ g ∈ f.filters, g.All P
  binds : ∀ b ∈ f.binds, b.1.All P ∧ P (.var b.2)
  bindTemplate : ∀ t ∈ f.bindTemplate, t.All P
  service : ∀ s ∈ f.service, P (.iri s)
  props : f.props.All P
  hidden : f.hidden.All P
  bindVars : f.bindVars.All P

/-- What holds of all items and of one more holds of all with that one behind. -/
theorem forall_mem_snoc {α : Type} {P : α → Prop} {items : List α} {last : α}
    (hitems : ∀ a ∈ items, P a) (hlast : P last) : ∀ a ∈ items ++ [last], P a :=
  List.forall_mem_append.mpr ⟨hitems, List.forall_mem_singleton.mpr hlast⟩

namespace Fragment.Within

variable {ns : Namespaces} {config : Config} {options : CompileOptions} {e : Entity}
  {d d' : Draft} {key : String}

/-- A subject is the IRI that the entity is fixed to, or a variable. -/
theorem subjectTerm {a a' : Allocator} {subject : Term}
    (h : e.subjectTerm ns a = .ok (subject, a')) : subject.All (e.Admits ns config) := by
  rcases Entity.subjectTerm_cases h with
    ⟨iri, hpin, rfl, -⟩ | ⟨-, name, -, rfl, -⟩ | ⟨-, -, rfl, -⟩
  · show e.Uses ns config iri
    have hdata : (e.dataText? "@id").map ns.expand = some iri → e.Uses ns config iri := by
      intro hiri
      obtain ⟨s, hs, rfl⟩ := Option.map_eq_some_iff.mp hiri
      exact Entity.uses_dataText? rfl hs
    unfold Entity.pin? at hpin
    cases hc : e.condition? "@id" with
    | none =>
        rw [hc] at hpin
        exact hdata hpin
    | some c =>
        rw [hc] at hpin
        cases c with
        | shared => cases hpin
        | related | computed => exact hdata hpin
        | value v =>
            obtain ⟨s, hs, rfl⟩ := Option.map_eq_some_iff.mp hpin
            exact .inr <| .condition (Entity.mem_of_condition? hc) rfl rfl
              (by rw [referenceIri?_items hs]; exact List.mem_singleton_self v) ⟨rfl, hs⟩
  · exact Allocator.isName_nameOf name
  · exact a.isName_join _

/-- The class of an entity is that of a condition or of its schema. -/
theorem uses_class {class_ : String} (h : e.class? ns = some class_) :
    e.Uses ns config class_ := by
  unfold Entity.class? at h
  split at h
  next v hc =>
    obtain ⟨s, hs, rfl⟩ := Option.map_eq_some_iff.mp h
    exact .inr (.condition (Entity.mem_of_condition? hc) rfl rfl
      (by rw [referenceIri?_items hs]; exact List.mem_singleton_self v) ⟨rfl, hs⟩)
  next => exact .inr (.class_ h)

/-- The restriction to a class of the entity has atoms of the entity alone. -/
theorem exactType {class_ : String} (h : e.Uses ns config class_) {subject : Term}
    (hsubject : subject.All (e.Admits ns config)) :
    (ObjectGraph.exactType subject class_).All (e.Admits ns config) :=
  ⟨hsubject, .inl (by decide), h⟩

/-- An entity starts out with atoms of its own alone. -/
theorem opening {a a' : Allocator} {subject : Term} (h : e.subjectTerm ns a = .ok (subject, a')) :
    (Draft.opening ns e subject a').fragment.Within (e.Admits ns config) := by
  have hsubject : subject.All (e.Admits ns config) := subjectTerm h
  have hservice : ∀ s ∈ e.service.map ns.expand, e.Uses ns config s := by
    intro s hs
    obtain ⟨t, ht, rfl⟩ := Option.map_eq_some_iff.mp hs
    exact .inr (.service ht)
  have hstart : (Draft.start ns e subject a').fragment.Within (e.Admits ns config) :=
    ⟨hsubject, List.forall_mem_nil _, List.forall_mem_nil _, List.forall_mem_nil _,
      List.forall_mem_nil _, List.forall_mem_nil _, hservice, List.forall_mem_nil _,
      List.forall_mem_nil _, List.forall_mem_nil _⟩
  unfold Draft.opening Draft.addIdentity
  split
  next relation values x hc hx =>
    refine { hstart with filters := List.forall_mem_append.mpr ⟨hstart.filters, ?_⟩ }
    intro g hg
    have hg := Option.mem_toList.mp hg
    have hname : IsName x.name := by
      have hx : subject = .var x := hx
      subst hx
      exact hsubject
    -- a test for existence makes no filter, so there is a comparison
    have hrelation : relation.isExistence = false := by
      cases relation <;> first | rfl | cases hg
    exact Entity.all_related (Entity.mem_of_condition? hc)
      (by simp [Condition.comparison?, hrelation]) rfl hname hg
  next => exact hstart

/-- The patterns of the most specific type have the atoms of the subject and the class, IRIs
of the vocabulary and names that are drawn. -/
theorem mostSpecificType {P : Atom → Prop} (hwords : ∀ i ∈ Vocabulary.inQueries, P (.iri i))
    (hnames : ∀ a : Allocator, ∀ s, P (.var (a.join s).1)) {subject : Term}
    (hsubject : subject.All P) {class_ : Option String} (hclass : ∀ i ∈ class_, P (.iri i))
    (index : Nat) (a : Allocator) :
    (MostSpecificType.compile subject class_ index a).1.triple.All P ∧
      (∀ g ∈ (MostSpecificType.compile subject class_ index a).1.filters, g.All P) ∧
      P (.var (MostSpecificType.compile subject class_ index a).1.typeVar) := by
  have htype : P (.iri Vocabulary.rdfType) := hwords _ (by decide)
  have hsubclass : P (.iri Vocabulary.subClassOf) := hwords _ (by decide)
  have htriple : ∀ x, P (.var x) → (Triple.ofType subject (.var x)).All P := fun x hx =>
    ⟨hsubject, htype, hx⟩
  have hnarrow : ∀ x y, P (.var x) → P (.var y) →
      (MostSpecificType.noNarrower subject x y).All P := fun x y hx hy =>
    ⟨List.forall_mem_cons.mpr ⟨⟨hy, htype, hsubject⟩,
      List.forall_mem_singleton.mpr ⟨hy, hsubclass, hx⟩⟩, ⟨hy, hx⟩, trivial⟩
  have hunder : ∀ x y c, P (.var x) → P (.var y) → P (.iri c) →
      (MostSpecificType.under x y c).All P := fun x y c hx hy hc =>
    ⟨List.forall_mem_singleton.mpr ⟨hx, hsubclass, hy⟩, ⟨hy, hc⟩, trivial⟩
  unfold MostSpecificType.compile
  cases class_ with
  | none =>
      exact ⟨htriple _ (hnames _ _),
        List.forall_mem_singleton.mpr (hnarrow _ _ (hnames _ _) (hnames _ _)), hnames _ _⟩
  | some c =>
      refine ⟨htriple _ (hnames _ _), List.forall_mem_cons.mpr
        ⟨hnarrow _ _ (hnames _ _) (hnames _ _), ?_⟩, hnames _ _⟩
      exact List.forall_mem_singleton.mpr
        (hunder _ _ c (hnames _ _) (hnames _ _) (hclass c rfl))

/-- The type adds atoms of the entity alone. -/
theorem types (hstep : Draft.Types ns e d d') (hd : d.fragment.Within (e.Admits ns config)) :
    d'.fragment.Within (e.Admits ns config) := by
  cases hstep with
  | untyped => exact hd
  | exact hclass =>
      exact { hd with
        mandatory := forall_mem_snoc hd.mandatory (exactType (uses_class hclass) hd.subject) }
  | resolved _ htype =>
      have hpatterns := mostSpecificType (P := e.Admits ns config) (fun _ => .inl)
        (fun a s => a.isName_join s) hd.subject (fun _ => uses_class) e.index d.alloc
      rw [htype] at hpatterns
      obtain ⟨htriple, hfilters, hname⟩ := hpatterns
      exact { hd with
        mandatory := forall_mem_snoc hd.mandatory htriple
        filters := List.forall_mem_append.mpr ⟨hd.filters, hfilters⟩
        props := KeyVars.All.insert hd.props hname }

/-- A selected key adds atoms of the entity alone. -/
theorem selects (hstep : Draft.Selects ns options e key d d')
    (hd : d.fragment.Within (e.Admits ns config)) : d'.fragment.Within (e.Admits ns config) := by
  cases hstep with
  | pinned | type | computed | unknown | unmapped => exact hd
  | @identity x _ hsubject =>
      -- the variable of the identity is the subject
      have hname : IsName x.name := by
        have hx := hd.subject
        rw [hsubject] at hx
        exact hx
      exact { hd with props := KeyVars.All.insert hd.props hname }
  | borrowed =>
      exact { hd with props := KeyVars.All.insert hd.props (Allocator.isName_nameOf key) }
  | deferred => exact { hd with }
  | @property p m _ _ _ _ hmapping =>
      have hname := Draft.isName_varFor e key (e.condition? key) d.alloc
      have htriple : (Draft.propertyTriple e key m d).All (e.Admits ns config) :=
        Mapping.all_triple (Entity.uses_predicate hmapping) hd.subject hname
      refine { hd with
        mandatory := ?mandatory, optional := ?optional, filters := ?filters, props := ?props }
      case mandatory =>
        rw [Draft.addProperty_mandatory]
        split
        · exact forall_mem_snoc hd.mandatory htriple
        · exact hd.mandatory
      case optional =>
        rw [Draft.addProperty_optional]
        split
        · exact hd.optional
        · exact forall_mem_snoc hd.optional htriple
      case filters =>
        refine List.forall_mem_append.mpr ⟨hd.filters, fun g hg => ?_⟩
        have hg := Option.mem_toList.mp hg
        cases hc : e.condition? key with
        | none =>
            rw [hc] at hg
            cases hg
        | some c =>
            rw [hc] at hg hname
            exact Entity.all_conditionFilter (Entity.mem_of_condition? hc) hmapping
              hd.subject hname g hg
      case props =>
        exact KeyVars.All.insert hd.props hname

/-- A triple of a computed key has the names and the IRIs that its positions stand for. -/
theorem pattern {relation : BindRelation} {triples : List BindTriple} {t : BindTriple}
    (hcondition : (key, .computed relation triples) ∈ e.conditions) (ht : t ∈ triples) :
    (BindTriple.pattern ns t).All (e.Admits ns config) := by
  have hterm : ∀ s, s = t.subject ∨ s = t.predicate ∨ s = t.object →
      (BindTriple.position ns s).All (e.Admits ns config) ∧
        (BindTriple.relation ns s).All (e.Admits ns config) := by
    intro s hs
    unfold BindTriple.position BindTriple.relation
    cases hname : Sparql.sharedName? s with
    | some name => exact ⟨Allocator.isName_nameOf name, Allocator.isName_nameOf name⟩
    | none =>
        have hplaced : e.Uses ns config (ns.expand s) := .inr (.position hcondition ht hs hname)
        exact ⟨hplaced, hplaced⟩
  exact ⟨(hterm _ (.inl rfl)).1, (hterm _ (.inr (.inl rfl))).2, (hterm _ (.inr (.inr rfl))).1⟩

/-- A condition adds atoms of the entity alone. -/
theorem restricts {c : Condition} (hcondition : (key, c) ∈ e.conditions)
    (hstep : Draft.Restricts ns config e key d c d')
    (hd : d.fragment.Within (e.Admits ns config)) : d'.fragment.Within (e.Admits ns config) := by
  cases hstep with
  | keyword | selected | unmapped => exact hd
  | @computed relation triples =>
      have hname := d.alloc.isName_join (key ++ toString e.index)
      have hgroup : Sparql.groupAll (e.Admits ns config)
          [.triples (triples.map (BindTriple.pattern ns))] :=
        ⟨List.forall_mem_map.mpr fun t ht => pattern hcondition ht, trivial⟩
      have htest : (relation.test ns triples).All (e.Admits ns config) := by
        cases relation <;> exact hgroup
      rw [Draft.addComputed_fragment]
      exact { hd with
        binds := forall_mem_snoc hd.binds ⟨htest, hname⟩
        bindTemplate := forall_mem_snoc hd.bindTemplate
          ⟨hd.subject, .inr (.computed hcondition), hname⟩
        bindVars := KeyVars.All.insert hd.bindVars hname }
  | @existence m relation values _ hmapping =>
      exact { hd with
        filters := forall_mem_snoc hd.filters
          (Mapping.all_test (Entity.uses_predicate hmapping) relation hd.subject
            (d.alloc.isName_fresh _)) }
  | @hidden m c _ hmapping =>
      have hname := Draft.isName_varFor e key (some c) d.alloc
      refine { hd with mandatory := ?_, filters := ?_, hidden := ?_ }
      · exact forall_mem_snoc hd.mandatory
          (Mapping.all_triple (Entity.uses_predicate hmapping) hd.subject hname)
      · refine List.forall_mem_append.mpr ⟨hd.filters, fun g hg => ?_⟩
        exact Entity.all_conditionFilter hcondition hmapping hd.subject hname g
          (Option.mem_toList.mp hg)
      · exact KeyVars.All.insert hd.hidden hname

/-- **The atoms of a fragment** are names and the IRIs that its entity places there, with some
of the vocabulary. -/
theorem compile {a a' : Allocator} {f : Fragment}
    (h : e.compile ns config options a = .ok (f, a')) : f.Within (e.Admits ns config) := by
  obtain ⟨d, hd, rfl, -⟩ := Entity.compile_draft
    (fun d => d.fragment.Within (e.Admits ns config))
    (fun _ _ => opening) (fun _ _ hd hstep => hd.types hstep)
    (fun _ _ _ _ hd hstep => hd.selects hstep)
    (fun _ hentry _ _ hd hstep => hd.restricts hentry hstep) h
  exact { hd with }

variable {P Q : Atom → Prop} {f : Fragment}

/-- A property of all atoms can be widened. -/
theorem mono (h : f.Within P) (hPQ : ∀ a, P a → Q a) : f.Within Q where
  subject := h.subject.mono hPQ
  mandatory t ht := (h.mandatory t ht).mono hPQ
  optional t ht := (h.optional t ht).mono hPQ
  filters g hg := (h.filters g hg).mono hPQ
  binds b hb := ⟨(h.binds b hb).1.mono hPQ, hPQ _ (h.binds b hb).2⟩
  bindTemplate t ht := (h.bindTemplate t ht).mono hPQ
  service s hs := hPQ _ (h.service s hs)
  props entry hentry := hPQ _ (h.props entry hentry)
  hidden entry hentry := hPQ _ (h.hidden entry hentry)
  bindVars entry hentry := hPQ _ (h.bindVars entry hentry)

theorem optionalPatterns (h : f.Within P) : ∀ p ∈ f.optionalPatterns, p.All P :=
  List.forall_mem_map.mpr fun t ht => ⟨List.forall_mem_singleton.mpr (h.optional t ht), trivial⟩

theorem filterPatterns (h : f.Within P) : ∀ p ∈ f.filterPatterns, p.All P :=
  List.forall_mem_map.mpr h.filters

theorem bindPatterns (h : f.Within P) : ∀ p ∈ f.bindPatterns, p.All P :=
  List.forall_mem_map.mpr h.binds

/-- Triples as the one pattern of a group, if there are any. -/
theorem tripleBlock {ts : List Triple} (h : ∀ t ∈ ts, t.All P) :
    ∀ p ∈ (if ts.isEmpty then [] else [Pattern.triples ts]), p.All P := by
  split
  · exact List.forall_mem_nil _
  · exact List.forall_mem_singleton.mpr h

/-- It holds of all atoms in the patterns of the fragment. -/
theorem patterns (h : f.Within P) : ∀ p ∈ f.patterns, p.All P := by
  simp only [Fragment.patterns, List.forall_mem_append]
  exact ⟨⟨⟨tripleBlock h.mandatory, h.optionalPatterns⟩, h.filterPatterns⟩, h.bindPatterns⟩

/-- It holds of all atoms in the template of a CONSTRUCT query. -/
theorem template (h : f.Within P) : ∀ t ∈ f.template, t.All P := by
  simp only [Fragment.template, List.forall_mem_append]
  exact ⟨⟨h.mandatory, h.optional⟩, h.bindTemplate⟩

/-- The variable of a key, be it selected, computed or hidden. -/
theorem var? (h : f.Within P) {x : Var} (hx : f.var? key = some x) : P (.var x) := by
  simp only [Fragment.var?, Option.orElse_eq_orElse, Option.orElse_eq_or,
    Option.or_eq_some_iff] at hx
  rcases hx with hx | ⟨-, hx | ⟨-, hx⟩⟩
  · exact h.props.var? hx
  · exact h.bindVars.var? hx
  · exact h.hidden.var? hx

theorem projection (h : f.Within P) : ∀ x ∈ f.projection, P (.var x) :=
  List.forall_mem_append.mpr ⟨h.props.vars, h.bindVars.vars⟩

/-- It holds of the variables that the fragment binds. -/
theorem boundVars (h : f.Within P) : ∀ x ∈ f.boundVars, P (.var x) := by
  intro x hx
  rcases List.mem_append.mp (List.mem_eraseDups.mp hx) with hx | hx
  · obtain ⟨t, ht, hx⟩ := List.mem_flatMap.mp hx
    exact (List.forall_mem_append.mpr ⟨h.mandatory, h.optional⟩ t ht).vars x hx
  · obtain ⟨b, hb, rfl⟩ := List.mem_map.mp hx
    exact (h.binds b hb).2

end Fragment.Within

end ObjectGraph
