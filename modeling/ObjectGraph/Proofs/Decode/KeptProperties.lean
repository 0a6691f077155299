import ObjectGraph.Proofs.Context.PropertyNames
import ObjectGraph.Proofs.Decode.Merging
import ObjectGraph.Proofs.NodeMap

/-!
# Properties that are kept

The object of a node has a member for each property, unless two of them have the same name or
one has the name of another member: the later one replaces the earlier.  The names of
properties that are read back differ as the properties do, so nothing is replaced; that they
are all read back is said exactly by `Context.NameReturns` (`keepsProperties_iff`).  A property
whose name behind the vocabulary is a term for another property is lost, or that one is
(`inner_name_lost`).
-/

namespace ObjectGraph

open Json (Value Object)

namespace Node

variable {ctx : Context} {n : Node}

/-- The members for the identity and the types of a node. -/
def heading (ctx : Context) (n : Node) : Object :=
  ("@id", .str (ctx.compactId n.id)) ::
    if n.types.isEmpty then []
    else [("@type", .ofItems (n.types.map fun t => .str (ctx.compactVocab t)))]

/-- The members for the properties of a node. -/
def members (ctx : Context) (n : Node) : Object :=
  n.properties.map fun p => compactProperty ctx p.1 p.2

/-- No property is dropped: their names differ from each other and from those of the identity
and the types, the object has a member for each with as many values, and each name is read as
its property. -/
structure KeepsProperties (ctx : Context) (n : Node) : Prop where
  different : (n.members ctx).keys.Nodup
  aside : "@id" ∉ (n.members ctx).keys ∧ "@type" ∉ (n.members ctx).keys
  object : n.compact ctx = n.heading ctx ++ n.members ctx
  sizes : ∀ p ∈ n.properties,
    (compactProperty ctx p.1 p.2).2.itemsOrSelf.length = p.2.length
  returns : ∀ p ∈ n.properties, ctx.expand true (compactProperty ctx p.1 p.2).1 = p.1

/-- The values of a property stand under its name. -/
theorem compactProperty_fst (ctx : Context) (predicate : String) (vs : List NodeValue) :
    (compactProperty ctx predicate vs).1 = ctx.propertyName predicate := by
  unfold compactProperty Context.propertyName
  cases ctx.termFor? predicate <;> rfl

/-- The members for properties have the names of the properties. -/
theorem keys_members (ctx : Context) (n : Node) :
    (n.members ctx).keys = n.properties.keys.map ctx.propertyName := by
  simp [members, Assoc.keys, compactProperty_fst]

/-- The object of a node has its members entered one by one. -/
theorem compact_eq (ctx : Context) (n : Node) :
    n.compact ctx =
      (n.members ctx).foldl (fun object m => Assoc.insert object m.1 m.2) (n.heading ctx) := by
  rw [members, List.foldl_map]
  rfl

/-- Identity and types stand under different keys. -/
theorem nodup_keys_heading (ctx : Context) (n : Node) : (n.heading ctx).keys.Nodup := by
  unfold heading
  split <;> simp [Assoc.keys]

/-- The heading has no other members. -/
theorem mem_keys_heading {key : String} (h : key ∈ (n.heading ctx).keys) :
    key = "@id" ∨ key = "@type" := by
  unfold heading at h
  split at h
  · exact .inl (by simpa [Assoc.keys] using h)
  · simpa [Assoc.keys] using h

/-- A value under a term is no array. -/
theorem itemsOrSelf_compactValue (ctx : Context) (coercion : Option Coercion) (v : NodeValue) :
    (compactValue ctx coercion v).itemsOrSelf = [compactValue ctx coercion v] := by
  have href : ∀ id, (compactRef ctx coercion id).itemsOrSelf = [compactRef ctx coercion id] := by
    intro id
    unfold compactRef
    split <;> rfl
  cases v with
  | iri id => exact href id
  | blank id => exact href id
  | literal text datatype language =>
      cases language with
      | some tag => rfl
      | none =>
          simp only [compactValue, compactLiteral]
          split <;> rfl

/-- The member for a property has as many values as the property. -/
theorem length_compactProperty (ctx : Context) (predicate : String) (vs : List NodeValue) :
    (compactProperty ctx predicate vs).2.itemsOrSelf.length = vs.length := by
  have hitems : ∀ coercion, (Value.ofItems (vs.map (compactValue ctx coercion))).itemsOrSelf =
      vs.map (compactValue ctx coercion) := by
    intro coercion
    refine Decode.itemsOrSelf_ofItems fun t ht => ?_
    obtain ⟨v, -, rfl⟩ := List.mem_map.mp ht
    exact itemsOrSelf_compactValue ctx coercion v
  unfold compactProperty
  split
  next term d _ =>
    dsimp only
    split
    · exact List.length_map ..
    · rw [hitems, List.length_map]
  next => rw [hitems, List.length_map]

/-- Where each name is read as its property and none is that of another member, no property is
dropped. -/
theorem keepsProperties_of_back (hpredicates : n.properties.keys.Nodup)
    (hback : ∀ predicate ∈ n.properties.keys,
      ctx.expand true (ctx.propertyName predicate) = predicate)
    (haside : ∀ predicate ∈ n.properties.keys,
      ctx.propertyName predicate ≠ "@id" ∧ ctx.propertyName predicate ≠ "@type") :
    n.KeepsProperties ctx := by
  have hdifferent : (n.members ctx).keys.Nodup := by
    rw [keys_members]
    refine hpredicates.map_on fun p hp q hq heq => ?_
    rw [← hback p hp, heq, hback q hq]
  have hnames : ∀ name, name = "@id" ∨ name = "@type" → name ∉ (n.members ctx).keys := by
    intro name hname hmem
    rw [keys_members] at hmem
    obtain ⟨predicate, hpredicate, rfl⟩ := List.mem_map.mp hmem
    exact hname.elim (haside predicate hpredicate).1 (haside predicate hpredicate).2
  have hkeys : ((n.heading ctx).keys ++ (n.members ctx).keys).Nodup := by
    refine List.nodup_append.mpr ⟨nodup_keys_heading ctx n, hdifferent, ?_⟩
    rintro name hname _ hmem rfl
    exact hnames name (mem_keys_heading hname) hmem
  exact
    { different := hdifferent
      aside := ⟨hnames _ (.inl rfl), hnames _ (.inr rfl)⟩
      object := by rw [compact_eq, Assoc.foldl_insert _ _ hkeys]
      sizes := fun p _ => length_compactProperty ctx p.1 p.2
      returns := fun p hp => by
        rw [compactProperty_fst]
        exact hback p.1 (List.mem_map_of_mem hp) }

end Node

/-- **Properties are kept** exactly where their names return, and are none of the names of
other members: of the nodes that quads make, under every context that is read. -/
theorem keepsProperties_iff {ctx : Context} (hread : ctx.Read) {quads : List Quad}
    {nodes : NodeMap} (hnodes : NodeMap.ofQuads quads = .ok nodes) {n : Node} (hn : n ∈ nodes) :
    n.KeepsProperties ctx ↔ ∀ predicate ∈ n.properties.keys, ctx.NameReturns predicate ∧
      ctx.propertyName predicate ≠ "@id" ∧ ctx.propertyName predicate ≠ "@type" := by
  have hback := Context.expand_propertyName_iff hread.words hread.distinct
  constructor
  · intro h predicate hpredicate
    have hname : ctx.propertyName predicate ∈ (n.members ctx).keys := by
      rw [Node.keys_members]
      exact List.mem_map_of_mem hpredicate
    obtain ⟨p, hp, rfl⟩ := List.mem_map.mp hpredicate
    have hreturns := h.returns p hp
    rw [Node.compactProperty_fst, hback] at hreturns
    exact ⟨hreturns, fun heq => h.aside.1 (heq ▸ hname), fun heq => h.aside.2 (heq ▸ hname)⟩
  · intro h
    exact Node.keepsProperties_of_back
      ((NodeMap.groups_of_ofQuads hnodes).describes n hn).predicates.nodup
      (fun predicate hmem => (hback predicate).mpr (h predicate hmem).1)
      fun predicate hmem => (h predicate hmem).2

/-! ## A book -/

/-- A text about a book. -/
def bookQuad (predicate text : String) : Quad :=
  ⟨.named "http://example.org/a", .named predicate, .literal text none, none⟩

/-- Properties of a book, under a term, under a prefix, behind the vocabulary and in full. -/
theorem keepsProperties_book : ∃ ctx n,
    Context.parse .empty (.obj [("@vocab", .str "http://vocab.org/"),
      ("ex", .str "http://example.org/"), ("label", .str "ex:label")]) = .ok ctx ∧
    NodeMap.ofQuads [bookQuad "http://example.org/label" "x",
      bookQuad "http://example.org/year" "1", bookQuad "http://vocab.org/name" "y",
      bookQuad "urn:title" "z"] = .ok [n] ∧
    (n.members ctx).keys = ["label", "ex:year", "name", "urn:title"] ∧
    n.KeepsProperties ctx := by
  let ctx : Context := ⟨some "http://vocab.org/", none,
    [("ex", .ofIri "http://example.org/"), ("label", .ofIri "http://example.org/label")]⟩
  let n : Node := ⟨"http://example.org/a", [],
    [("http://example.org/label", [.literal "x" none none]),
      ("http://example.org/year", [.literal "1" none none]),
      ("http://vocab.org/name", [.literal "y" none none]),
      ("urn:title", [.literal "z" none none])]⟩
  have hparse : Context.parse .empty (.obj [("@vocab", .str "http://vocab.org/"),
      ("ex", .str "http://example.org/"), ("label", .str "ex:label")]) = .ok ctx := rfl
  have hread : ctx.Read := .above .empty hparse
  have hnodes : NodeMap.ofQuads [bookQuad "http://example.org/label" "x",
      bookQuad "http://example.org/year" "1", bookQuad "http://vocab.org/name" "y",
      bookQuad "urn:title" "z"] = .ok [n] := by cbv
  have hback : ∀ predicate ∈ n.properties.keys,
      ctx.expand true (ctx.propertyName predicate) = predicate ∧
        ctx.propertyName predicate ≠ "@id" ∧ ctx.propertyName predicate ≠ "@type" := by
    decide +kernel
  refine ⟨ctx, n, hparse, hnodes, by decide +kernel, ?_⟩
  refine (keepsProperties_iff hread hnodes (List.mem_singleton_self n)).mpr fun p hp => ?_
  obtain ⟨hp, haside⟩ := hback p hp
  exact ⟨(Context.expand_propertyName_iff hread.words hread.distinct p).mp hp, haside⟩

/-- **A property that is lost**: its name behind the vocabulary is a term for another one. -/
theorem inner_name_lost : ∃ ctx n,
    Context.parse .empty (.obj [("@vocab", .str "http://vocab.org/"),
      ("name", .str "http://example.org/name")]) = .ok ctx ∧
    NodeMap.ofQuads [bookQuad "http://vocab.org/name" "inner",
      bookQuad "http://example.org/name" "outer"] = .ok [n] ∧
    n.properties.keys = ["http://vocab.org/name", "http://example.org/name"] ∧
    n.compact ctx = [("@id", .str "http://example.org/a"), ("name", .str "outer")] ∧
    ¬ n.KeepsProperties ctx := by
  let ctx : Context :=
    ⟨some "http://vocab.org/", none, [("name", .ofIri "http://example.org/name")]⟩
  let n : Node := ⟨"http://example.org/a", [],
    [("http://vocab.org/name", [.literal "inner" none none]),
      ("http://example.org/name", [.literal "outer" none none])]⟩
  have hlost : ¬ (n.members ctx).keys.Nodup := by decide +kernel
  exact ⟨ctx, n, rfl, by cbv, rfl, by decide +kernel, fun h => hlost h.different⟩

end ObjectGraph
