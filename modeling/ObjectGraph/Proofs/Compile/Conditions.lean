import Mathlib.Data.List.Basic
import ObjectGraph.Proofs.Compile.Demand
import ObjectGraph.Proofs.Compile.Growth

/-!
# What a condition becomes

`Expresses` says by the rules of conditions alone how one shows in a fragment: what is
compared stands in a filter with each of the values, a test for existence looks at the
property, a shared name is the variable of the triple or of the subject, and a
condition on the type restricts to its class.

The identity has to be an IRI, or there is no fragment (`compile_error_iff`).  Any other
condition that cannot be expressed is passed over without a word.  `Hears` lists the
conditions for which this does not happen: a relation has as many values as it
compares, a selected key is one of the schema, a relation is on the identity only where
nothing else fixes it, and the type has one class.  Each of them is expressed
(`compile_hears`), be its key selected or not.
-/

namespace ObjectGraph

open Json (Value)
open Sparql (Var Term Triple Expression Pattern)

/-! ## Comparisons -/

/-- A filter compares a variable with an operand somewhere: by an operator, or as a
text by a function. -/
inductive Sparql.Expression.Compares (x : Var) : Expression → Expression → Prop
  | operator {op : Sparql.BinaryOp} {operand : Expression} :
      Compares x (.binary op (.var x) operand) operand
  | text {function : Sparql.Builtin} {args : List Expression} {operand : Expression}
      (h : operand ∈ args) : Compares x (.call function (.call .str [.var x] :: args)) operand
  | left {op : Sparql.BinaryOp} {l r operand : Expression} (h : Compares x l operand) :
      Compares x (.binary op l r) operand
  | right {op : Sparql.BinaryOp} {l r operand : Expression} (h : Compares x r operand) :
      Compares x (.binary op l r) operand
  | not {g operand : Expression} (h : Compares x g operand) : Compares x (.not g) operand

namespace Sparql.Expression.Compares

variable {x : Var} {operand : Expression} {op : Sparql.BinaryOp}

/-- Joining more tests keeps what one compares. -/
theorem foldl {g : Expression} (h : g.Compares x operand) (rest : List Expression) :
    (rest.foldl (.binary op) g).Compares x operand := by
  induction rest generalizing g with
  | nil => exact h
  | cons r rest ih => exact ih (.left h)

/-- Joining a test to others keeps what it compares. -/
theorem foldl_of_mem {t : Expression} (h : t.Compares x operand) {rest : List Expression}
    (ht : t ∈ rest) (g : Expression) : (rest.foldl (.binary op) g).Compares x operand := by
  induction rest generalizing g with
  | nil => cases ht
  | cons r rest ih =>
      rcases List.mem_cons.mp ht with rfl | ht
      · exact (Compares.right h).foldl rest
      · exact ih ht _

end Sparql.Expression.Compares

/-- What a condition compares its key with; a value asks for any of its items. -/
def Condition.comparison? : Condition → Option (Relation × List Value)
  | .value v => some (.any, v.itemsOrSelf)
  | .related relation values => if relation.isExistence then none else some (relation, values)
  | .shared _ | .computed _ _ => none

/-- Whether a relation compares all of these values, and at least one. -/
def Relation.Takes (relation : Relation) (values : List Value) : Prop :=
  match relation with
  | .after | .before => values.length = 1
  | .between => values.length = 2
  | .regEx => values.length = 1 ∨ values.length = 2
  | _ => values ≠ []

namespace Filter

variable {ns : Namespaces} {kind : Kind} {x : Var}

/-- A value as the operand of a relation: a pattern for the relations of texts. -/
def comparand (ns : Namespaces) (kind : Kind) (relation : Relation) (v : Value) : Expression :=
  match relation with
  | .contains | .notContains | .startWith | .endWith | .regEx => patternText v
  | _ => operand ns kind v

/-- A value is compared as the only item of an array. -/
theorem equality_eq (x : Var) (ns : Namespaces) (kind : Kind) (v : Value) :
    equality x ns kind v = related x ns kind .any v.itemsOrSelf := by
  cases v <;> rfl

/-- A filter that compares a variable with every value of a relation. -/
def ComparesAll (x : Var) (ns : Namespaces) (kind : Kind) (relation : Relation)
    (values : List Value) (g : Expression) : Prop :=
  related x ns kind relation values = some g ∧
    ∀ v ∈ values, g.Compares x (comparand ns kind relation v)

/-- Tests for each value that are joined compare what each one compares. -/
theorem exists_fold? (op : Sparql.BinaryOp) {test target : Value → Expression}
    {values : List Value} (hvalues : values ≠ []) (htest : ∀ v, (test v).Compares x (target v)) :
    ∃ g, Expression.fold? op (values.map test) = some g ∧
      ∀ v ∈ values, g.Compares x (target v) := by
  cases values with
  | nil => exact (hvalues rfl).elim
  | cons v rest =>
      refine ⟨(rest.map test).foldl (.binary op) (test v), rfl, fun w hw => ?_⟩
      rcases List.mem_cons.mp hw with rfl | hw
      · exact (htest w).foldl _
      · exact (htest w).foldl_of_mem (List.mem_map_of_mem hw) _

/-- A relation with enough values and none too many has a filter that compares all of
them. -/
theorem exists_comparesAll {relation : Relation} {values : List Value} (x : Var) (ns : Namespaces)
    (kind : Kind) (hrelation : relation.isExistence = false) (h : relation.Takes values) :
    ∃ g, ComparesAll x ns kind relation values g := by
  have hoperator : ∀ op v, (comparison op x ns kind v).Compares x (operand ns kind v) :=
    fun _ _ => .operator
  have htext : ∀ function v, (textTest function x [v]).Compares x (patternText v) :=
    fun _ _ => .text List.mem_cons_self
  cases relation with
  | equal | any => exact exists_fold? .or h (hoperator .eq)
  | notEqual | notAny => exact exists_fold? .and h (hoperator .ne)
  | after =>
      obtain ⟨v, rfl⟩ := List.length_eq_one_iff.mp h
      exact ⟨_, rfl, List.forall_mem_singleton.mpr (hoperator .ge v)⟩
  | before =>
      obtain ⟨v, rfl⟩ := List.length_eq_one_iff.mp h
      exact ⟨_, rfl, List.forall_mem_singleton.mpr (hoperator .le v)⟩
  | between =>
      obtain ⟨low, high, rfl⟩ := List.length_eq_two.mp h
      refine ⟨_, rfl, ?_⟩
      simp only [List.forall_mem_cons]
      exact ⟨.left (hoperator .ge low), .right (hoperator .lt high), by simp⟩
  | contains => exact exists_fold? .or h (htext .contains)
  | notContains => exact exists_fold? .and h fun v => .not (htext .contains v)
  | startWith => exact exists_fold? .or h (htext .strStarts)
  | endWith => exact exists_fold? .or h (htext .strEnds)
  | regEx =>
      have htaken : values.take 2 = values :=
        List.take_of_length_le (by rcases h with h | h <;> omega)
      have hsome : related x ns kind .regEx values = some (textTest .regex x (values.take 2)) := by
        cases values with
        | nil => simp [Relation.Takes] at h
        | cons => rfl
      refine ⟨_, hsome, fun v hv => .text ?_⟩
      rw [htaken]
      exact List.mem_map_of_mem hv
  | exist | notExist => cases hrelation

end Filter

/-! ## Expressed conditions -/

/-- A condition on a key shows in a fragment. -/
inductive Fragment.Expresses (ns : Namespaces) (e : Entity) (f : Fragment) :
    String → Condition → Prop
  /-- The identity is the subject. -/
  | pinned {v : Value} {iri : String} (hv : referenceIri? v = some iri)
      (hsubject : f.subject = .iri (ns.expand iri)) : Expresses ns e f "@id" (.value v)
  | identity {relation : Relation} {values : List Value} {x : Var} {g : Expression}
      (hrelation : relation.isExistence = false) (hsubject : f.subject = .var x)
      (hfilter : g ∈ f.filters) (hall : Filter.ComparesAll x ns .iri relation values g) :
      Expresses ns e f "@id" (.related relation values)
  | named {name : String} (hsubject : f.subject = .var ⟨Allocator.nameOf name⟩) :
      Expresses ns e f "@id" (.shared name)
  /-- The subject is of the class. -/
  | exactly {v : Value} {iri : String} (hv : referenceIri? v = some iri)
      (hmandatory : exactType f.subject (ns.expand iri) ∈ f.mandatory) :
      Expresses ns e f "@type" (.value v)
  /-- The type of the subject leads to the class. -/
  | under {v : Value} {iri : String} {type supertype : Var} (hv : referenceIri? v = some iri)
      (hmandatory : Triple.ofType f.subject (.var type) ∈ f.mandatory)
      (hfilter : MostSpecificType.under type supertype (ns.expand iri) ∈ f.filters) :
      Expresses ns e f "@type" (.value v)
  | compared {key : String} {m : Mapping} {c : Condition} {relation : Relation}
      {values : List Value} {x : Var} {g : Expression} (hkey : Schema.isKeyword key = false)
      (hmapping : e.mapping? ns key = some m) (hc : c.comparison? = some (relation, values))
      (hmandatory : m.triple f.subject (.var x) ∈ f.mandatory) (hfilter : g ∈ f.filters)
      (hall : Filter.ComparesAll x ns (e.schema.kindOf key).element relation values g) :
      Expresses ns e f key c
  /-- A witness of its own is looked for. -/
  | tested {key : String} {m : Mapping} {relation : Relation} {values : List Value} {w : Var}
      (hkey : Schema.isKeyword key = false) (hmapping : e.mapping? ns key = some m)
      (hrelation : relation.isExistence = true) (hwitness : f.subject ≠ .var w)
      (hfilter : m.test relation f.subject w ∈ f.filters) :
      Expresses ns e f key (.related relation values)
  | shared {key name : String} {m : Mapping} (hkey : Schema.isKeyword key = false)
      (hmapping : e.mapping? ns key = some m)
      (hmandatory : m.triple f.subject (.var ⟨Allocator.nameOf name⟩) ∈ f.mandatory) :
      Expresses ns e f key (.shared name)

/-- What is expressed stays so in a larger fragment. -/
theorem Fragment.Extends.expresses {ns : Namespaces} {e : Entity} {f f' : Fragment}
    (h : f.Extends f') {key : String} {c : Condition} (hc : f.Expresses ns e key c) :
    f'.Expresses ns e key c := by
  cases hc with
  | pinned hv hsubject => exact .pinned hv (h.subject.trans hsubject)
  | identity hrelation hsubject hfilter hall =>
      exact .identity hrelation (h.subject.trans hsubject) (h.filters hfilter) hall
  | named hsubject => exact .named (h.subject.trans hsubject)
  | exactly hv hmandatory => exact .exactly hv (h.subject ▸ h.mandatory hmandatory)
  | under hv hmandatory hfilter =>
      exact .under hv (h.subject ▸ h.mandatory hmandatory) (h.filters hfilter)
  | compared hkey hmapping hc hmandatory hfilter hall =>
      exact .compared hkey hmapping hc (h.subject ▸ h.mandatory hmandatory) (h.filters hfilter) hall
  | tested hkey hmapping hrelation hwitness hfilter =>
      exact .tested hkey hmapping hrelation (h.subject ▸ hwitness) (h.subject ▸ h.filters hfilter)
  | shared hkey hmapping hmandatory =>
      exact .shared hkey hmapping (h.subject ▸ h.mandatory hmandatory)

/-- The conditions of an entity that are not passed over. -/
inductive Entity.Hears (ns : Namespaces) (e : Entity) : String → Condition → Prop
  | pinned {v : Value} : Hears ns e "@id" (.value v)
  | named {name : String} : Hears ns e "@id" (.shared name)
  | identity {relation : Relation} {values : List Value}
      (hrelation : relation.isExistence = false) (htakes : relation.Takes values)
      (hdata : e.dataText? "@id" = none) : Hears ns e "@id" (.related relation values)
  | type {v : Value} {iri : String} (hv : referenceIri? v = some iri) :
      Hears ns e "@type" (.value v)
  | key {key : String} {m : Mapping} {c : Condition} (hkey : Schema.isKeyword key = false)
      (hmapping : e.mapping? ns key = some m) (hcomputed : c.isComputed = false)
      (hknown : key ∈ e.selectedKeys → e.schema.hasProperty key = true)
      (htakes : ∀ relation values, c.comparison? = some (relation, values) →
        relation.Takes values) : Hears ns e key c

/-! ## Steps -/

/-- The subject holds its name if it is a variable, and what is heard of a selected key
is expressed. -/
structure Draft.Expressive (ns : Namespaces) (e : Entity) (d : Draft) : Prop where
  held : ∀ s, d.fragment.subject = .var s → Held s d.alloc
  selected : ∀ key ∈ d.fragment.props.keys, Schema.isKeyword key = false → ∀ c,
    e.condition? key = some c → e.Hears ns key c → d.fragment.Expresses ns e key c

namespace Draft

variable {ns : Namespaces} {config : Config} {options : CompileOptions} {e : Entity}
  {d d' : Draft}

/-- An entity starts out with its subject. -/
theorem opening_subject (ns : Namespaces) (e : Entity) (subject : Term) (a : Allocator) :
    (opening ns e subject a).fragment.subject = subject := by
  unfold opening addIdentity
  split <;> rfl

/-- The triple, the variable and the filter that a condition puts on a key express it. -/
theorem expresses_of_filter {f : Fragment} {key : String} {m : Mapping} {c : Condition}
    {a b : Allocator} (hears : e.Hears ns key c) (hkey : Schema.isKeyword key = false)
    (hmapping : e.mapping? ns key = some m) (hheld : ∀ s, f.subject = .var s → Held s b)
    (hmandatory : c.narrows = true →
      m.triple f.subject (.var (varFor e key (some c) a).1) ∈ f.mandatory)
    (hfilters : (conditionFilter ns e f.subject m key (varFor e key (some c) a).1 c b).1.toList ⊆
      f.filters) : f.Expresses ns e key c := by
  obtain ⟨hcomputed, htakes⟩ : c.isComputed = false ∧
      ∀ relation values, c.comparison? = some (relation, values) → relation.Takes values := by
    cases hears with
    | pinned | named | identity | type => cases hkey
    | key _ _ hcomputed _ htakes => exact ⟨hcomputed, htakes⟩
  cases c with
  | computed => cases hcomputed
  | shared name => exact .shared hkey hmapping (hmandatory rfl)
  | value v =>
      obtain ⟨g, hall⟩ := Filter.exists_comparesAll (varFor e key (some (.value v)) a).1 ns
        (e.schema.kindOf key).element rfl (htakes _ _ rfl)
      refine .compared hkey hmapping rfl (hmandatory rfl) (hfilters ?_) hall
      simpa [conditionFilter, Filter.equality_eq] using hall.1
  | related relation values =>
      cases hrelation : relation.isExistence with
      | true =>
          refine .tested hkey hmapping hrelation
            (w := (b.fresh (key ++ "Exist" ++ toString e.index)).1) ?_ (hfilters ?_)
          · intro hsubject
            exact (hheld _ hsubject).ne_fresh _ rfl
          · simp [conditionFilter, hrelation, existence_eq]
      | false =>
          have hc : (Condition.related relation values).comparison? = some (relation, values) := by
            simp [Condition.comparison?, hrelation]
          obtain ⟨g, hall⟩ := Filter.exists_comparesAll
            (varFor e key (some (.related relation values)) a).1 ns
            (e.schema.kindOf key).element hrelation (htakes _ _ hc)
          refine .compared hkey hmapping hc (hmandatory (by simp [Condition.narrows, hrelation]))
            (hfilters ?_) hall
          simpa [conditionFilter, hrelation] using hall.1

namespace Expressive

/-- A step that enters no key of which something is heard keeps what is expressed. -/
theorem grow (h : Expressive ns e d) (hextends : d.fragment.Extends d'.fragment)
    (hheld : ∀ s, d.fragment.subject = .var s → Held s d'.alloc)
    (hkeys : ∀ key ∈ d'.fragment.props.keys, Schema.isKeyword key = false → ∀ c,
      e.Hears ns key c → key ∈ d.fragment.props.keys) : Expressive ns e d' where
  held s hs := hheld s (hextends.subject ▸ hs)
  selected key hmem hkey c hc hears :=
    hextends.expresses (h.selected key (hkeys key hmem hkey c hears) hkey c hc hears)

/-- At the start no key has been entered. -/
theorem opening {subject : Term} {a b : Allocator} (ha : a.SharedUsed)
    (hs : e.subjectTerm ns a = .ok (subject, b)) :
    Expressive ns e (Draft.opening ns e subject b) where
  held s hsubject := by
    rw [opening_subject] at hsubject
    rw [opening_alloc]
    cases hpin : e.pin? ns with
    | none =>
        obtain ⟨v, hv, hheld⟩ := Entity.subjectTerm_held ha hpin hs
        rw [hsubject] at hv
        exact Term.var.inj hv ▸ hheld
    | some iri =>
        rw [Entity.subjectTerm_of_pin hpin a] at hs
        cases hs
        cases hsubject
  selected key hmem := by
    have hprops : (Draft.opening ns e subject b).fragment.props = .empty := by
      unfold Draft.opening addIdentity
      split <;> rfl
    rw [hprops] at hmem
    cases hmem

/-- The type enters no key but a keyword. -/
theorem types (h : Expressive ns e d) (hstep : Types ns e d d') : Expressive ns e d' := by
  refine h.grow hstep.extends (fun s hs => (Held.lasting s).fresh.types hstep (h.held s hs)) ?_
  intro key hmem hkey _ _
  cases hstep with
  | exact | untyped => exact hmem
  | resolved =>
      rcases KeyVars.mem_keys_insert hmem with hold | rfl
      · exact hold
      · cases hkey

/-- The condition of a selected key is expressed when its property is added. -/
theorem selects (h : Expressive ns e d) {key : String} (hasked : key ∈ e.selectedKeys)
    (hstep : Selects ns options e key d d') : Expressive ns e d' := by
  have hheld : ∀ s, d.fragment.subject = .var s → Held s d'.alloc := fun s hs =>
    (Held.lasting s).selects hstep (h.held s hs)
  have hextends := hstep.extends
  cases hstep with
  | pinned | type | computed | unknown | deferred | unmapped =>
      exact h.grow hextends hheld fun _ hmem _ _ _ => hmem
  | identity =>
      refine h.grow hextends hheld fun k hmem hkey _ _ => ?_
      rcases KeyVars.mem_keys_insert hmem with hold | rfl
      · exact hold
      · cases hkey
  | borrowed hkey hunknown =>
      refine h.grow hextends hheld fun k hmem _ c hears => ?_
      rcases KeyVars.mem_keys_insert hmem with hold | rfl
      · exact hold
      · cases hears with
        | pinned | named | identity | type => cases hkey
        | key _ _ _ hknown =>
            have hproperty := hknown hasked
            rw [Schema.hasProperty, Assoc.contains, show Assoc.get? _ _ = none from hunknown]
              at hproperty
            cases hproperty
  | @property p m hkey _ _ _ hmapping =>
      refine ⟨fun s hs => hheld s hs, fun k hmem hk c hc hears => ?_⟩
      rcases KeyVars.mem_keys_insert hmem with hold | rfl
      · exact hextends.expresses (h.selected k hold hk c hc hears)
      · refine expresses_of_filter (a := d.alloc)
          (b := (varFor e k (some c) d.alloc).2) hears hkey hmapping ?_ ?_ ?_
        · exact fun s hs => (Held.lasting s).varFor k _ (h.held s hs)
        · intro hnarrows
          rw [addProperty_mandatory, mustHave, hc, Option.any_some, hnarrows, Bool.or_true,
            if_pos rfl, propertyTriple, hc]
          exact List.mem_append_right _ List.mem_cons_self
        · simp [addProperty, hc]

/-- A condition enters no key among those that are selected. -/
theorem restricts (h : Expressive ns e d) {key : String} {c : Condition}
    (hstep : Restricts ns config e key d c d') : Expressive ns e d' := by
  refine h.grow hstep.extends (fun s hs => (Held.lasting s).restricts hstep (h.held s hs)) ?_
  intro k hmem _ _ _
  cases hstep with
  | keyword | selected | unmapped | computed | existence | hidden => exact hmem

end Expressive

end Draft

/-! ## Fragments -/

namespace Entity

variable {ns : Namespaces} {config : Config} {options : CompileOptions} {e : Entity}
  {a a' : Allocator} {f : Fragment}

/-- **The only refusal.**  An entity has no fragment exactly if a condition gives an
identity that is no IRI. -/
theorem compile_error_iff {x : MapperError} :
    e.compile ns config options a = .error x ↔
      x = .malformed e.index "@id" .notAnIri ∧
        ∃ v, e.condition? "@id" = some (.value v) ∧ referenceIri? v = none := by
  have hcompile : e.compile ns config options a = .error x ↔ e.subjectTerm ns a = .error x := by
    unfold compile
    cases e.subjectTerm ns a <;> simp [bind, Except.bind]
  rw [hcompile]
  unfold subjectTerm
  dsimp only
  split
  next name hc => simp [hc]
  next v hc =>
    cases hv : referenceIri? v <;> simp [hc, hv, eq_comm]
  next hshared hvalue =>
    constructor
    · intro h
      split at h <;> cases h
    · rintro ⟨-, v, hv, -⟩
      exact (hvalue v hv).elim

/-- Every condition on a property that is heard is expressed. -/
theorem compile_property (ha : a.SharedUsed) (h : e.compile ns config options a = .ok (f, a'))
    {key : String} {c : Condition} (hkey : Schema.isKeyword key = false)
    (hc : e.condition? key = some c) (hears : e.Hears ns key c) : f.Expresses ns e key c := by
  obtain ⟨last, hwalk, rfl, -⟩ := compile_walk (Draft.Expressive ns e)
    Draft.builds_extends (fun _ _ hs => .opening ha hs)
    (fun _ _ hd hstep => ⟨hd.types hstep, hstep.extends⟩)
    (fun _ hasked _ _ hd hstep => ⟨hd.selects hasked hstep, hstep.extends⟩)
    (fun _ _ _ _ hd hstep => ⟨hd.restricts hstep, hstep.extends⟩) h
  obtain ⟨d, d', hd, hstep, hextends⟩ := hwalk.conditions _ (mem_of_condition? hc)
  refine (hextends.trans (.selected _ _)).expresses ?_
  obtain ⟨m, hmapping, hcomputed⟩ : ∃ m, e.mapping? ns key = some m ∧ c.isComputed = false := by
    cases hears with
    | pinned | named | identity | type => cases hkey
    | key _ hmapping hcomputed => exact ⟨_, hmapping, hcomputed⟩
  cases hstep with
  | keyword hword =>
      rw [hkey] at hword
      cases hword
  | selected hselected =>
      refine hd.selected key ?_ hkey c hc hears
      exact Decidable.not_not.mp fun hnot => by
        rw [KeyVars.contains, Assoc.contains, Assoc.get?_eq_none_iff.mpr hnot] at hselected
        cases hselected
  | unmapped _ hunmapped =>
      rw [hmapping] at hunmapped
      cases hunmapped
  | computed => cases hcomputed
  | @existence m' relation values _ hmapping' hrelation =>
      refine .tested hkey hmapping' hrelation
        (w := (d.alloc.fresh (key ++ "Exist" ++ toString e.index)).1) ?_ ?_
      · intro hsubject
        exact (hd.held _ hsubject).ne_fresh _ rfl
      · exact List.mem_append_right _ List.mem_cons_self
  | @hidden m' _ _ hmapping' hnarrows =>
      refine Draft.expresses_of_filter (a := d.alloc)
        (b := (Draft.varFor e key (some c) d.alloc).2) hears hkey hmapping' ?_ ?_ ?_
      · exact fun s hs => (Held.lasting s).varFor key _ (hd.held s hs)
      · exact fun _ => List.mem_append_right _ List.mem_cons_self
      · exact List.subset_append_right _ _

/-- Every condition on the identity that is heard is expressed. -/
theorem compile_identity (h : e.compile ns config options a = .ok (f, a')) {c : Condition}
    (hc : e.condition? "@id" = some c) (hears : e.Hears ns "@id" c) :
    f.Expresses ns e "@id" c := by
  obtain ⟨last, hwalk, rfl, -⟩ := compile_extends h
  obtain ⟨subject, b, hs, hextends⟩ := hwalk.opening
  refine (hextends.trans (.selected _ _)).expresses ?_
  generalize hkey : "@id" = key at hears
  cases hears with
  | key hword =>
      subst hkey
      cases hword
  | type => exact absurd hkey (by decide)
  | @pinned v =>
      unfold subjectTerm at hs
      simp only [hc] at hs
      cases hv : referenceIri? v with
      | none => simp [hv] at hs
      | some iri =>
          simp only [hv, Except.ok.injEq, Prod.mk.injEq] at hs
          exact .pinned hv (by rw [Draft.opening_subject, hs.1])
  | @named name =>
      unfold subjectTerm at hs
      simp only [hc, Except.ok.injEq, Prod.mk.injEq] at hs
      exact .named (by rw [Draft.opening_subject, ← hs.1]; rfl)
  | @identity relation values hrelation htakes hdata =>
      unfold subjectTerm at hs
      simp only [hc, hdata, Except.ok.injEq, Prod.mk.injEq] at hs
      obtain ⟨rfl, rfl⟩ := hs
      obtain ⟨g, hall⟩ := Filter.exists_comparesAll (a.join ("eIri" ++ toString e.index)).1 ns .iri
        hrelation htakes
      refine .identity hrelation (Draft.opening_subject ..) ?_ hall
      simp only [Draft.opening, Draft.addIdentity, Draft.start, hc, hall.1]
      exact List.mem_cons_self

/-- Every condition on the type that is heard is expressed. -/
theorem compile_type (h : e.compile ns config options a = .ok (f, a')) {c : Condition}
    (hc : e.condition? "@type" = some c) (hears : e.Hears ns "@type" c) :
    f.Expresses ns e "@type" c := by
  obtain ⟨last, hwalk, rfl, -⟩ := compile_extends h
  obtain ⟨d, d', -, hstep, hextends⟩ := hwalk.type
  refine (hextends.trans (.selected _ _)).expresses ?_
  generalize hkey : "@type" = key at hears
  cases hears with
  | key hword =>
      subst hkey
      cases hword
  | pinned | named | identity => exact absurd hkey (by decide)
  | @type v iri hv =>
      have hclass : e.class? ns = some (ns.expand iri) := by simp [class?, hc, hv]
      cases hstep with
      | untyped hnone =>
          rw [hclass] at hnone
          cases hnone
      | @exact class_ hsome =>
          obtain rfl : ns.expand iri = class_ := Option.some.inj (hclass.symm.trans hsome)
          exact .exactly hv (List.mem_append_right _ List.mem_cons_self)
      | resolved _ htype =>
          rw [hclass, MostSpecificType.compile] at htype
          cases htype
          exact .under hv (List.mem_append_right _ List.mem_cons_self)
            (List.mem_append_right _ (List.mem_cons_of_mem _ List.mem_cons_self))

/-- **No condition that is heard is lost.** -/
theorem compile_hears (ha : a.SharedUsed) :
    (∀ x, e.compile ns config options a = .error x ↔
      x = .malformed e.index "@id" .notAnIri ∧
        ∃ v, e.condition? "@id" = some (.value v) ∧ referenceIri? v = none) ∧
    ∀ f a', e.compile ns config options a = .ok (f, a') → ∀ key c,
      e.condition? key = some c → e.Hears ns key c → f.Expresses ns e key c := by
  refine ⟨fun x => compile_error_iff, ?_⟩
  intro f a' h key c hc hears
  by_cases hid : key = "@id"
  · subst hid
    exact compile_identity h hc hears
  by_cases htype : key = "@type"
  · subst htype
    exact compile_type h hc hears
  · exact compile_property ha h (by simp [Schema.isKeyword, hid, htype]) hc hears

/-- Tasks whose names are asked for. -/
def filteredTask (conditions : Assoc Condition) (resolveType : Bool := false) : Entity where
  index := 0
  schema :=
    { targetClass := some "ex:Task"
      context := [("name", .str "ex:name"), ("size", .str "ex:size"), ("note", .str "ex:note"),
        ("owner", .str "ex:owner")]
      properties := [("name", {}), ("size", { type := some "integer" }), ("note", {}),
        ("owner", { format := some "iri" })] }
  conditions := conditions
  selection := some ["@id", "name"]
  resolveType := resolveType

/-- All six conditions on some bugs are expressed, on selected keys and on others. -/
theorem compile_hears_bugs :
    let e := filteredTask
      [("@id", .related .notAny [.str "ex:t1", .str "ex:t2"]), ("@type", .value (.str "ex:Bug")),
        ("name", .related .startWith [.str "a", .str "b"]),
        ("size", .related .between [.num (.int 1), .num (.int 5)]),
        ("note", .related .notExist []), ("owner", .shared "who")] true
    Allocator.empty.SharedUsed ∧ ∃ f a', e.compile .exampleOrg {} {} .empty = .ok (f, a') ∧
      ∀ entry ∈ e.conditions, f.Expresses .exampleOrg e entry.1 entry.2 := by
  intro e
  obtain ⟨f, a', h⟩ : ∃ f a', e.compile .exampleOrg {} {} .empty = .ok (f, a') := ⟨_, _, rfl⟩
  refine ⟨Allocator.sharedUsed_empty, f, a', h, ?_⟩
  have hall : ∀ key c, e.condition? key = some c → e.Hears .exampleOrg key c →
      f.Expresses .exampleOrg e key c := (compile_hears Allocator.sharedUsed_empty).2 f a' h
  have hkey : ∀ {key : String} {m : Mapping} {c : Condition}, Schema.isKeyword key = false →
      e.mapping? .exampleOrg key = some m → c.isComputed = false →
      e.schema.hasProperty key = true →
      (∀ relation values, c.comparison? = some (relation, values) → relation.Takes values) →
      e.Hears .exampleOrg key c := fun hkey hmapping hcomputed hknown htakes =>
    .key hkey hmapping hcomputed (fun _ => hknown) htakes
  simp only [e, filteredTask, List.forall_mem_cons]
  refine ⟨hall _ _ rfl (.identity rfl (by simp [Relation.Takes]) rfl), hall _ _ rfl (.type rfl),
    hall _ _ rfl (hkey rfl rfl rfl rfl ?_), hall _ _ rfl (hkey rfl rfl rfl rfl ?_),
    hall _ _ rfl (hkey rfl rfl rfl rfl ?_), hall _ _ rfl (hkey rfl rfl rfl rfl ?_), by simp⟩
  all_goals
    rintro relation values h
    cases h
  all_goals simp [Relation.Takes]

/-- A condition on the type that is no IRI takes the class of the schema away, and an
empty list of names is compared with none; neither is refused. -/
theorem type_and_names_passed_over :
    let restricts (conditions : Assoc Condition) :=
      ((filteredTask conditions).compile .exampleOrg {} {} .empty).map fun made =>
        (made.1.mandatory, made.1.filters)
    let five : Condition := .value (.num (.int 5))
    let task := exactType (.var ⟨"eIri0"⟩) "http://example.org/Task"
    let name : Triple := ⟨.var ⟨"eIri0"⟩, .iri "http://example.org/name", .var ⟨"name0"⟩⟩
    restricts [] = .ok ([task], []) ∧ restricts [("@type", five)] = .ok ([], []) ∧
      restricts [("name", .related .any [])] = .ok ([task, name], []) ∧
      ∀ f : Fragment, ¬ f.Expresses .exampleOrg (filteredTask [("@type", five)]) "@type" five := by
  intro restricts five task name
  refine ⟨rfl, rfl, rfl, fun f (h : f.Expresses _ _ "@type" (.value (.num (.int 5)))) => ?_⟩
  generalize hkey : "@type" = key at h
  cases h with
  | exactly hv | under hv => cases hv
  | pinned => exact absurd hkey (by decide)
  | compared hword => subst hkey; cases hword

end Entity

end ObjectGraph
