import ObjectGraph.Compile.Construct
import ObjectGraph.Compile.Update
import ObjectGraph.Proofs.Compile.Conditions
import ObjectGraph.Proofs.Sparql.Semantics

/-!
# Conditions that list values

A list of values may be given as it stands or as the relation `any` to it
(`Condition.Membership`).  Both are read as the same condition exactly if the list is not
empty: an empty one is refused as a relation and taken as it stands (`parse_congr_iff`).  So
requests that differ in such spellings only are built and compiled alike
(`CollectionRequest.Respelled.queries_eq`).

The filter of the condition is a chain of comparisons joined by `||`.  It is true of the
listed values and of no others (`Filter.any_isTrue_iff`), and each fragment that has the
condition on a stored key has it, next to the mandatory triple of the key.
-/

namespace ObjectGraph

open Json (Value Object)
open Sparql (Var Expression Engine Solution)

/-! ## Disjunctions -/

namespace Sparql.Expression

variable {E : Engine} {G : Rdf.Graph} {μ : Solution}

/-- An expression is false under a solution, and no error. -/
def IsFalse (E : Engine) (G : Rdf.Graph) (μ : Solution) (e : Expression) : Prop :=
  (e.value? E G μ).bind E.truth = some false

/-- The truth of a disjunction comes from those of its sides. -/
theorem truth_or (htruth : ∀ b, E.truth (.ofBool b) = some b) (l r : Expression) :
    ((binary .or l r).value? E G μ).bind E.truth =
      or? ((l.value? E G μ).bind E.truth) ((r.value? E G μ).bind E.truth) := by
  have hmap : ∀ b : Option Bool, (b.map Rdf.Term.ofBool).bind E.truth = b := by
    intro b
    cases b with
    | none => rfl
    | some b => exact htruth b
  rw [value?, hmap]

/-- A disjunction is true if one of its members is, be the others errors. -/
theorem isTrue_or_iff (htruth : ∀ b, E.truth (.ofBool b) = some b) {l r : Expression} :
    (binary .or l r).IsTrue E G μ ↔ l.IsTrue E G μ ∨ r.IsTrue E G μ := by
  unfold IsTrue
  rw [truth_or htruth]
  unfold or?
  split <;> simp_all

/-- A disjunction of what is false is false. -/
theorem IsFalse.or (htruth : ∀ b, E.truth (.ofBool b) = some b) {l r : Expression}
    (hl : l.IsFalse E G μ) (hr : r.IsFalse E G μ) : (binary .or l r).IsFalse E G μ := by
  unfold IsFalse at *
  rw [truth_or htruth, hl, hr]
  rfl

/-- Tests that are joined by `||` hold if one of them does. -/
theorem isTrue_foldl_or_iff (htruth : ∀ b, E.truth (.ofBool b) = some b) {g : Expression}
    {tests : List Expression} : (tests.foldl (.binary .or) g).IsTrue E G μ ↔
      g.IsTrue E G μ ∨ ∃ t ∈ tests, t.IsTrue E G μ := by
  induction tests generalizing g with
  | nil => simp
  | cons t rest ih =>
      rw [List.foldl_cons, ih, isTrue_or_iff htruth, or_assoc]
      simp

/-- A chain of what is false is false. -/
theorem IsFalse.foldl_or (htruth : ∀ b, E.truth (.ofBool b) = some b) {g : Expression}
    {tests : List Expression} (hg : g.IsFalse E G μ) (htests : ∀ t ∈ tests, t.IsFalse E G μ) :
    (tests.foldl (.binary .or) g).IsFalse E G μ :=
  List.foldlRecOn tests _ hg fun _ hd t ht => hd.or htruth (htests t ht)

end Sparql.Expression

namespace Filter

variable {E : Engine} {G : Rdf.Graph} {μ : Solution} {ns : Namespaces} {kind : Kind} {x : Var}
  {values : List Value} {g : Expression}

/-- The terms that a list of values stands for, under the equality of the store. -/
def Lists (E : Engine) (ns : Namespaces) (kind : Kind) (values : List Value) (y : Rdf.Term) :
    Prop :=
  ∃ v ∈ values, ∃ t, (Encode.value ns kind v).ground? = some t ∧ E.compare .eq y t = some true

/-- An operand has the term that its value stands for. -/
theorem operand_value? (ns : Namespaces) (kind : Kind) (v : Value) :
    ∃ t, (Encode.value ns kind v).ground? = some t ∧
      (operand ns kind v).value? E G μ = some t := by
  unfold operand
  obtain ⟨i, h⟩ | ⟨l, h⟩ := Encode.value_cases ns kind v
  · exact ⟨.iri i, by rw [h]; rfl, by rw [h, Expression.ofTerm, Expression.value?]⟩
  · exact ⟨l.denoted, by rw [h]; rfl, by rw [h, Expression.ofTerm, Expression.value?]⟩

/-- A comparison with a value is what the store says of the two terms. -/
theorem comparison_truth (htruth : ∀ b, E.truth (.ofBool b) = some b) {v : Value} {t : Rdf.Term}
    (ht : (Encode.value ns kind v).ground? = some t) :
    ((comparison .eq x ns kind v).value? E G μ).bind E.truth =
      (μ x).bind fun y => E.compare .eq y t := by
  obtain ⟨t', ht', hoperand⟩ := operand_value? (E := E) (G := G) (μ := μ) ns kind v
  obtain rfl : t = t' := Option.some.inj (ht.symm.trans ht')
  unfold comparison
  simp only [Expression.value?, hoperand]
  cases μ x with
  | none => rfl
  | some y =>
      cases hcompare : E.compare .eq y t with
      | none => simp [hcompare]
      | some b => simp [hcompare, htruth]

/-- **The filter of a list is true of the values in it.** -/
theorem any_isTrue_iff (htruth : ∀ b, E.truth (.ofBool b) = some b)
    (h : related x ns kind .any values = some g) :
    g.IsTrue E G μ ↔ ∃ y, μ x = some y ∧ Lists E ns kind values y := by
  have heach : ∀ v, (comparison .eq x ns kind v).IsTrue E G μ ↔
      ∃ y, μ x = some y ∧ Lists E ns kind [v] y := by
    intro v
    obtain ⟨t, ht, -⟩ := operand_value? (E := E) (G := G) (μ := μ) ns kind v
    simp only [Expression.IsTrue, comparison_truth htruth ht, Option.bind_eq_some_iff, Lists,
      List.mem_singleton, exists_eq_left, ht, Option.some.injEq, exists_eq_left']
  have hmember : g.IsTrue E G μ ↔ ∃ v ∈ values, (comparison .eq x ns kind v).IsTrue E G μ := by
    cases values with
    | nil => cases h
    | cons v rest =>
        obtain rfl := Option.some.inj h
        rw [Expression.isTrue_foldl_or_iff htruth]
        simp
  simp only [hmember, heach, Lists, List.mem_singleton, exists_eq_left]
  constructor
  · rintro ⟨v, hv, y, hy, hequal⟩
    exact ⟨y, hy, v, hv, hequal⟩
  · rintro ⟨y, hy, v, hv, hequal⟩
    exact ⟨v, hv, y, hy, hequal⟩

/-- It is false, and no error, of a value that the store tells from all of them. -/
theorem any_isFalse (htruth : ∀ b, E.truth (.ofBool b) = some b)
    (h : related x ns kind .any values = some g) {y : Rdf.Term} (hy : μ x = some y)
    (hother : ∀ v ∈ values, ∀ t, (Encode.value ns kind v).ground? = some t →
      E.compare .eq y t = some false) : g.IsFalse E G μ := by
  have heach : ∀ v ∈ values, (comparison .eq x ns kind v).IsFalse E G μ := by
    intro v hv
    obtain ⟨t, ht, -⟩ := operand_value? (E := E) (G := G) (μ := μ) ns kind v
    rw [Expression.IsFalse, comparison_truth htruth ht, hy]
    exact hother v hv t ht
  cases values with
  | nil => cases h
  | cons v rest =>
      obtain rfl := Option.some.inj h
      obtain ⟨hfirst, hrest⟩ := List.forall_mem_cons.mp heach
      exact hfirst.foldl_or htruth (List.forall_mem_map.mpr hrest)

end Filter

/-! ## Spellings -/

namespace Condition

/-- The spellings of the condition that a value is in a list: the list itself, or the
relation to it. -/
inductive Membership (values : List Value) : Value → Prop
  | plain : Membership values (.arr values)
  | related {members : Object} (hbind : Assoc.get? members "bind" = none)
      (hrelation : Assoc.get? members "relation" = some (.str Relation.any.name))
      (hvalues : Assoc.get? members "value" = some (.arr values)) :
      Membership values (.obj members)

variable {values : List Value} {v w : Value}

/-- A plain list is read as the relation to it, also if it is empty. -/
theorem parse_plain (values : List Value) : parse (.arr values) = .ok (.related .any values) :=
  rfl

/-- A relation needs a value. -/
theorem parse_related {members : Object} (hbind : Assoc.get? members "bind" = none)
    (hrelation : Assoc.get? members "relation" = some (.str Relation.any.name))
    (hvalues : Assoc.get? members "value" = some (.arr values)) :
    parse (.obj members) =
      if values = [] then .error (.missingValue Relation.any.name)
      else .ok (.related .any values) := by
  have hname : Relation.ofName? Relation.any.name = some .any := by decide
  have hread : relationValues (some (.arr values)) = values := rfl
  simp only [parse, hbind, hrelation, parseRelation, Value.asText?, Option.getD_some, hname,
    hvalues, hread, Relation.isExistence, List.isEmpty_iff, Bool.and_true, Bool.not_false,
    reduceCtorEq, false_and, if_false]

/-- Every spelling of a list that is not empty is read as the relation to it. -/
theorem Membership.parse_eq (h : Membership values v) (hvalues : values ≠ []) :
    parse v = .ok (.related .any values) := by
  cases h with
  | plain => exact parse_plain values
  | related hbind hrelation hread => rw [parse_related hbind hrelation hread, if_neg hvalues]

/-- The spellings of a list are read alike exactly if it is not empty. -/
theorem parse_congr_iff (values : List Value) :
    (∀ v w, Membership values v → Membership values w → parse v = parse w) ↔ values ≠ [] := by
  constructor
  · rintro h rfl
    let members : Object := [("relation", .str Relation.any.name), ("value", .arr [])]
    have hrelated : Membership [] (.obj members) := .related rfl rfl rfl
    have hsame := h _ _ .plain hrelated
    rw [parse_plain, parse_related rfl rfl rfl, if_pos rfl] at hsame
    cases hsame
  · intro hvalues v w hv hw
    rw [hv.parse_eq hvalues, hw.parse_eq hvalues]

/-- The same condition, or another spelling of the same list. -/
inductive Respelled : Value → Value → Prop
  | same (v : Value) : Respelled v v
  | listed {values : List Value} {v w : Value} (hvalues : values ≠ [])
      (hv : Membership values v) (hw : Membership values w) : Respelled v w

/-- All spellings of a condition are read alike. -/
theorem Respelled.parse_eq (h : Respelled v w) : parse v = parse w := by
  cases h with
  | same => rfl
  | listed hvalues hv hw => rw [hv.parse_eq hvalues, hw.parse_eq hvalues]

end Condition

/-- A run over two lists is the same if each step is. -/
theorem mapM_congr_forall₂ {α β ε : Type} {f g : α → Except ε β} {xs ys : List α}
    (h : List.Forall₂ (fun x y => f x = g y) xs ys) : xs.mapM f = ys.mapM g := by
  induction h with
  | nil => rfl
  | cons hfirst _ ih => rw [List.mapM_cons, List.mapM_cons, hfirst, ih]

/-- The same request for an entity, with some lists spelled in another way. -/
structure EntityRequest.Respelled (r r' : EntityRequest) : Prop where
  same : r' = { r with conditions := r'.conditions }
  conditions : List.Forall₂ (fun c c' => c.1 = c'.1 ∧ Condition.Respelled c.2 c'.2)
    r.conditions r'.conditions

/-- The same request for a collection, with some lists spelled in another way. -/
structure CollectionRequest.Respelled (r r' : CollectionRequest) : Prop where
  same : r' = { r with entities := r'.entities }
  entities : List.Forall₂ EntityRequest.Respelled r.entities r'.entities

/-- All that a request is compiled to: the two queries, and two updates. -/
def CollectionRequest.queries (catalog : SchemaCatalog) (config : Config) (ns : Namespaces)
    (r : CollectionRequest) : Except MapperError
      (Except MapperError SelectPlan × Except MapperError ConstructPlan ×
        Except MapperError Sparql.Update × Except MapperError Sparql.Update) :=
  (Collection.build catalog config r).map fun c =>
    (c.compileSelect ns config, c.compileConstruct ns config, c.compileUpdate ns,
      c.compileDelete ns config)

/-- The conditions of an entity are read alike. -/
theorem EntityRequest.Respelled.ofRequest_eq {r r' : EntityRequest} (h : r.Respelled r')
    (catalog : SchemaCatalog) (config : Config) (index : Nat) :
    Entity.ofRequest catalog config index r = Entity.ofRequest catalog config index r' := by
  have hread : Entity.readConditions index r.conditions =
      Entity.readConditions index r'.conditions := by
    refine mapM_congr_forall₂ (h.conditions.imp ?_)
    rintro ⟨key, v⟩ ⟨key', w⟩ ⟨rfl, hrespelled⟩
    dsimp only
    rw [hrespelled.parse_eq]
  rw [h.same]
  unfold Entity.ofRequest
  rw [hread]

/-- **Spellings do not matter.**  Requests that differ in them are built alike. -/
theorem CollectionRequest.Respelled.build_eq {r r' : CollectionRequest} (h : r.Respelled r')
    (catalog : SchemaCatalog) (config : Config) :
    Collection.build catalog config r = Collection.build catalog config r' := by
  have hplaces : ∀ {requests requests' : List EntityRequest} (start : Nat),
      List.Forall₂ EntityRequest.Respelled requests requests' →
        List.Forall₂ (fun p p' => Entity.ofRequest catalog config p.2 p.1 =
          Entity.ofRequest catalog config p'.2 p'.1)
          (requests.zipIdx start) (requests'.zipIdx start) := by
    intro requests requests' start hrequests
    induction hrequests generalizing start with
    | nil => exact .nil
    | cons hfirst _ ih => exact .cons (hfirst.ofRequest_eq catalog config start) (ih _)
  have hentities : Collection.entitiesOf catalog config r.entities =
      Collection.entitiesOf catalog config r'.entities := by
    refine mapM_congr_forall₂ (hplaces 0 h.entities)
  rw [h.same]
  unfold Collection.build
  rw [hentities]

/-- Requests that differ in spellings are compiled alike. -/
theorem CollectionRequest.Respelled.queries_eq {r r' : CollectionRequest} (h : r.Respelled r')
    (catalog : SchemaCatalog) (config : Config) (ns : Namespaces) :
    r.queries catalog config ns = r'.queries catalog config ns := by
  unfold CollectionRequest.queries
  rw [h.build_eq catalog config]

/-- A list on a stored key has a filter on the variable of the key. -/
theorem Entity.compile_membership {ns : Namespaces} {config : Config} {options : CompileOptions}
    {e : Entity} {a a' : Allocator} {f : Fragment} {key : String} {m : Mapping}
    {values : List Value} (ha : a.SharedUsed) (h : e.compile ns config options a = .ok (f, a'))
    (hvalues : values ≠ []) (hkey : Schema.isKeyword key = false)
    (hmapping : e.mapping? ns key = some m)
    (hknown : key ∈ e.selectedKeys → e.schema.hasProperty key = true)
    (hcondition : e.condition? key = some (.related .any values)) :
    ∃ x g, m.triple f.subject (.var x) ∈ f.mandatory ∧ g ∈ f.filters ∧
      Filter.related x ns (e.schema.kindOf key).element .any values = some g := by
  have htakes : ∀ relation values',
      (Condition.related .any values).comparison? = some (relation, values') →
        relation.Takes values' := by
    rintro relation values' hcomparison
    cases hcomparison
    exact hvalues
  cases compile_property ha h hkey hcondition (.key hkey hmapping rfl hknown htakes) with
  | identity => cases hkey
  | tested _ _ hrelation => cases hrelation
  | @compared _ m' _ _ _ x g _ hmapping' hcomparison hmandatory hfilter hall =>
      cases hcomparison
      obtain rfl : m = m' := Option.some.inj (hmapping.symm.trans hmapping')
      exact ⟨x, g, hmandatory, hfilter, hall.1⟩

/-- **One condition, two spellings.**  A list of values and the relation `any` to it are read
alike exactly if the list is not empty, and requests that differ in such spellings only are
compiled alike.  Where an entity has the condition on a stored key, its fragment has the
triple of the key and a filter on the variable in it, which is true of the listed values
only and false of all values that the store tells from them. -/
theorem Condition.membership_spelled_alike (values : List Value) :
    ((∀ v w, Membership values v → Membership values w → parse v = parse w) ↔ values ≠ []) ∧
    (∀ r r' : CollectionRequest, r.Respelled r' → ∀ catalog config ns,
      r.queries catalog config ns = r'.queries catalog config ns) ∧
    ∀ (ns : Namespaces) (config : Config) (options : CompileOptions) (e : Entity)
      (a a' : Allocator) (f : Fragment), a.SharedUsed →
      e.compile ns config options a = .ok (f, a') →
      ∀ (key : String) (m : Mapping), values ≠ [] →
        Schema.isKeyword key = false → e.mapping? ns key = some m →
        (key ∈ e.selectedKeys → e.schema.hasProperty key = true) →
        e.condition? key = some (.related .any values) →
        ∃ x g, m.triple f.subject (.var x) ∈ f.mandatory ∧ g ∈ f.filters ∧
          ∀ (E : Engine) (G : Rdf.Graph) (μ : Solution),
            (∀ b, E.truth (.ofBool b) = some b) →
            let kind := (e.schema.kindOf key).element
            (g.IsTrue E G μ ↔ ∃ y, μ x = some y ∧ Filter.Lists E ns kind values y) ∧
            ∀ y, μ x = some y →
              (∀ v ∈ values, ∀ t, (Encode.value ns kind v).ground? = some t →
                E.compare .eq y t = some false) → g.IsFalse E G μ := by
  refine ⟨parse_congr_iff values, fun r r' h => h.queries_eq, ?_⟩
  intro ns config options e a a' f ha h key m hvalues hkey hmapping hknown hcondition
  obtain ⟨x, g, hmandatory, hfilter, hrelated⟩ :=
    Entity.compile_membership ha h hvalues hkey hmapping hknown hcondition
  refine ⟨x, g, hmandatory, hfilter, fun E G μ htruth => ⟨?_, fun y hy hother => ?_⟩⟩
  · exact Filter.any_isTrue_iff htruth hrelated
  · exact Filter.any_isFalse htruth hrelated hy hother

/-- A request for things by their codes. -/
def codeRequest (codes : Value) : CollectionRequest where
  id := none
  entities :=
    [{ schema := .inline
         { targetClass := some "ex:Thing"
           context := [("code", .str "ex:code")]
           properties := [("code", {})] }
       conditions := [("code", codes)]
       selection := none, data := [], resolveType := none, orderBy := none, limit := none
       offset := none, distinct := none, service := none }]
  orderBy := none
  limit := none
  offset := none
  distinct := none
  options := []

/-- A list of codes as the relation to it. -/
def anyCode (codes : List Value) : Value :=
  .obj [("value", .arr codes), ("relation", .str "any")]

/-- Two codes are asked for in two spellings, and a third one is told from them. -/
theorem Condition.membership_spelled_alike_codes :
    let codes : List Value := [.str "a", .str "b"]
    (codeRequest (.arr codes)).Respelled (codeRequest (anyCode codes)) ∧
    (codeRequest (.arr codes)).queries ⟨[]⟩ {} .exampleOrg =
      (codeRequest (anyCode codes)).queries ⟨[]⟩ {} .exampleOrg ∧
    ∃ c e f a', Collection.build ⟨[]⟩ {} (codeRequest (anyCode codes)) = .ok c ∧
      c.entities = [e] ∧ e.compile .exampleOrg {} {} .empty = .ok (f, a') ∧
      ∃ x, ∃ g ∈ f.filters, ∀ E : Engine,
        (∀ b, E.truth (.ofBool b) = some b) →
        (∀ s t, E.compare .eq (.literal s Vocabulary.xsdString none)
          (.literal t Vocabulary.xsdString none) = some (s == t)) →
        ∀ G, g.IsFalse E G fun v => if v = x then some (.literal "c" Vocabulary.xsdString none)
          else none := by
  intro codes
  have hcodes : codes ≠ [] := List.cons_ne_nil _ _
  have hrespelled : (codeRequest (.arr codes)).Respelled (codeRequest (anyCode codes)) :=
    ⟨rfl, .cons ⟨rfl, .cons ⟨rfl, .listed hcodes .plain (.related rfl rfl rfl)⟩ .nil⟩ .nil⟩
  refine ⟨hrespelled, (membership_spelled_alike codes).2.1 _ _ hrespelled _ _ _, ?_⟩
  obtain ⟨c, e, f, a', hbuild, hentities, hcompile, hcondition, hmapping, hknown⟩ :
      ∃ c e f a', Collection.build ⟨[]⟩ {} (codeRequest (anyCode codes)) = .ok c ∧
        c.entities = [e] ∧ e.compile .exampleOrg {} {} .empty = .ok (f, a') ∧
        e.condition? "code" = some (.related .any codes) ∧
        e.mapping? .exampleOrg "code" = some ⟨"http://example.org/code", false⟩ ∧
        e.schema.property? "code" = some {} :=
    ⟨_, _, _, _, rfl, rfl, rfl, rfl, rfl, rfl⟩
  have hkind : e.schema.kindOf "code" = .string := by
    rw [Schema.kindOf, hknown]
    rfl
  have hproperty : e.schema.hasProperty "code" = true := congrArg Option.isSome hknown
  obtain ⟨x, g, -, hfilter, hmeans⟩ := (membership_spelled_alike codes).2.2 .exampleOrg {} {} e
    .empty a' f Allocator.sharedUsed_empty hcompile "code" _ hcodes (by decide) hmapping
    (fun _ => hproperty) hcondition
  refine ⟨c, e, f, a', hbuild, hentities, hcompile, x, g, hfilter, fun E htruth hcompare G => ?_⟩
  refine (hmeans E G _ htruth).2 _ (if_pos rfl) ?_
  rw [hkind]
  simp only [codes, List.forall_mem_cons]
  refine ⟨?_, ?_, by simp⟩
  all_goals
    rintro t ht
    obtain rfl := Option.some.inj ht
    exact hcompare _ _

/-- Of no codes at all, one spelling is refused.  The other one asks for all things with a
code, and deletes them. -/
theorem Condition.no_codes_spelled_apart :
    let v : Var := ⟨"eIri0"⟩
    let any : Sparql.Triple := ⟨.var v, .var ⟨"p0"⟩, .var ⟨"o0"⟩⟩
    let code : Sparql.Triple := ⟨.var v, .iri "http://example.org/code", .var ⟨"code0"⟩⟩
    Membership [] (.arr []) ∧ Membership [] (anyCode []) ∧
    (codeRequest (anyCode [])).queries ⟨[]⟩ {} .exampleOrg =
      .error (.malformed 0 "code" (.missingValue "any")) ∧
    ∃ c, Collection.build ⟨[]⟩ {} (codeRequest (.arr [])) = .ok c ∧
      c.compileDelete .exampleOrg {} = .ok [.modify [any] []
        [.triples [any, exactType (.var v) "http://example.org/Thing", code]]] :=
  ⟨.plain, .related rfl rfl rfl, rfl, _, rfl, rfl⟩

end ObjectGraph
