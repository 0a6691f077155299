import Mathlib.Data.List.Permutation
import ObjectGraph.Proofs.Decode.Gathering
import ObjectGraph.Proofs.Decode.Partition
import ObjectGraph.Proofs.Decode.Sizes
import ObjectGraph.Proofs.Decode.Sorting

/-!
# The order of decoded objects

A graph yields the objects of the root, which linking leaves in the order of their nodes
(`Reading.nodes_sublist`), sorted by the order keys.  Where the values under each key are
coherent, the comparison is a total preorder on these objects, and they come in this order,
those that tie in the order of their nodes (`graph_sorted`).

An order by one key is there in no other case.  A key for integers keeps the text of what it
cannot read, and three prices `10`, `"5.5"` and `9` stand in a circle: whatever order they
come in, two of them next to each other are the wrong way round (`prices_in_a_circle`).
-/

namespace ObjectGraph.Decode

open Json (Value Number Object)

namespace Reading

variable {ns : Namespaces} {config : Config} {parts : List Part} {quads : List Quad}

/-- The decoded nodes of the root, after linking. -/
def found (r : Reading ns config parts quads) : List Decoded :=
  (r.final.head?.map (·.2)).getD []

theorem roots_final (r : Reading ns config parts quads) :
    roots r.final = r.found.map (·.object) := rfl

/-- **The objects of the root** come in the order of their nodes. -/
theorem nodes_sublist (r : Reading ns config parts quads) :
    (r.found.map (·.node)).Sublist r.nodes := by
  unfold found
  rw [List.head?_eq_getElem?]
  cases hown : r.own[0]? with
  | none =>
      rw [getElem?_final_of_none hown]
      exact List.nil_sublist _
  | some e =>
      obtain ⟨s, ds⟩ := e
      have hnodes : ((ds.map (linkLater ns s (turns ns r.own 1 0))).map (·.node)) =
          ds.map (·.node) := by
        rw [List.map_map]
        exact List.map_congr_left fun d _ => linkLater_node ns s _ d
      rw [getElem?_final hown, Option.map_some, Option.getD_some, hnodes]
      -- The nodes of an entity are one of the groups that share out the nodes.
      obtain ⟨-, hds⟩ := List.getElem?_zip_eq_some.mp hown
      rw [decoded, decodeAll, List.getElem?_map] at hds
      obtain ⟨⟨t, group⟩, hgroup, rfl⟩ := Option.map_eq_some_iff.mp hds
      obtain ⟨taken, hshared⟩ := shared_groupNodes ns r.nodes parts
      have hmem := List.mem_of_getElem? (List.getElem?_zip_eq_some.mp hgroup).2
      have hsame : (group.map fun n => (⟨n, shape ns r.nodes t n⟩ : Decoded)).map (·.node) =
          group := by
        rw [List.map_map]
        exact List.map_id group
      rw [hsame]
      exact hshared.sublist group hmem

end Reading

variable {ns : Namespaces} {config : Config}

/-- **Decoded objects are sorted.**  A graph yields the objects of the root, whose nodes come
in their order.  Any two objects are compared alike from both sides.  By one key the
comparison is a total preorder on the objects of the root exactly if their values under it
are coherent, and by several keys it is one if this holds for each.  Then the objects come
in the order of the keys, and those that tie come in the order of their nodes. -/
theorem graph_sorted {c : Collection} {parts : List Part} {quads : List Quad}
    {objects : List Object} (h : graph ns config c parts quads = .ok objects) :
    ∃ r : Reading ns config parts quads,
      roots r.final = r.found.map (·.object) ∧ (r.found.map (·.node)).Sublist r.nodes ∧
      objects.Perm (roots r.final) ∧
      (∀ keys a b, compareObjects keys a b = (compareObjects keys b a).swap) ∧
      (∀ k : OrderKey, PreorderOn (compareObjects [k]) (roots r.final) ↔
        Coherent (valuesAt k.key (roots r.final))) ∧
      (∀ keys : List OrderKey, (∀ k ∈ keys, Coherent (valuesAt k.key (roots r.final))) →
        PreorderOn (compareObjects keys) (roots r.final)) ∧
      ((∀ k ∈ orderKeys c parts, Coherent (valuesAt k.key (roots r.final))) →
        (objects.Pairwise fun a b => (compareObjects (orderKeys c parts) a b).isLE) ∧
        ∀ a ∈ objects, objects.filter (compareObjects (orderKeys c parts) a · == .eq) =
          (roots r.final).filter (compareObjects (orderKeys c parts) a · == .eq)) := by
  obtain ⟨r, hobjects⟩ := graph_sorts h
  have horder : ∀ keys : List OrderKey,
      (∀ k ∈ keys, Coherent (valuesAt k.key (roots r.final))) →
        PreorderOn (compareObjects keys) (roots r.final) :=
    fun keys hkeys => compareObjects_preorder fun k hk =>
      (compareKey_preorder_iff (r.sized_roots k.key)).mpr (hkeys k hk)
  have hperm : objects.Perm (roots r.final) := hobjects ▸ sortBy_perm _ _
  refine ⟨r, r.roots_final, r.nodes_sublist, hperm, compareObjects_swap, fun k => ?_, horder,
    fun hkeys => ?_⟩
  · rw [compareObjects_singleton]
    exact compareKey_preorder_iff (r.sized_roots k.key)
  · have hpreorder := horder _ hkeys
    refine ⟨hobjects ▸ hpreorder.pairwise_sortBy, fun a ha => ?_⟩
    rw [hobjects]
    exact hpreorder.filter_sortBy (hperm.mem_iff.mp ha)

/-- Wares by their prices, which are integers. -/
def pricedWares : Collection where
  entities :=
    [{ index := 0
       schema :=
         { targetClass := some "ex:Ware"
           context := [("price", .str "ex:price")]
           properties := [("price", { type := some "integer" })] } }]
  orderBy := [⟨"price", false⟩]

/-- Wares with the texts of their prices, as far as they have one. -/
def wareQuads (wares : List (String × Option String)) : List Quad :=
  wares.flatMap fun (id, price) =>
    quadOf id Vocabulary.rdfType "http://example.org/Ware" :: price.toList.map fun text =>
      ⟨.named id, .named "http://example.org/price", .literal text none, none⟩

/-- Two wares with a number for a price, one with another text and one without a price. -/
def mixedQuads : List Quad :=
  wareQuads [("ex:a", some "unknown"), ("ex:b", some "10"), ("ex:c", some "9"), ("ex:d", none)]

/-- A ware as it is decoded. -/
def ware (id : String) (price : Option Value) : Object :=
  ("@id", .str id) :: price.toList.map fun v => ("price", v)

/-- Prices that are numbers stay in order beside a text that stands behind all of them. -/
theorem graph_sorted_pricedWares :
    ∃ objects, (readBack .exampleOrg pricedWares mixedQuads).toOption = some objects ∧
      Coherent (valuesAt "price" objects) ∧
      objects.Pairwise fun a b => (compareObjects pricedWares.orderBy a b).isLE := by
  have hread : ∃ objects, (readBack .exampleOrg pricedWares mixedQuads).toOption = some objects ∧
      Coherent (valuesAt "price" objects) :=
    ⟨[ware "ex:d" none, ware "ex:c" (some (.num (.int 9))), ware "ex:b" (some (.num (.int 10))),
      ware "ex:a" (some (.str "unknown"))], by decide +kernel, by decide +kernel⟩
  obtain ⟨objects, hread, hcoherent⟩ := hread
  obtain ⟨plan, hplan, h⟩ := exists_plan_of_readBack hread
  have hkeys : ∀ made ∈ (pricedWares.compileConstruct .exampleOrg {}).toOption,
      orderKeys pricedWares made.parts = pricedWares.orderBy := by
    decide +kernel
  have horder := hkeys plan (by rw [hplan]; rfl)
  obtain ⟨r, -, -, hperm, -, -, -, hsorted⟩ := graph_sorted h
  refine ⟨objects, hread, hcoherent, ?_⟩
  rw [horder] at hsorted
  refine (hsorted fun k hk => ?_).1
  obtain rfl := List.mem_singleton.mp hk
  exact hcoherent.of_subset (hperm.symm.filterMap _).subset

/-- Three prices of which each precedes the next, and the last one the first: the wares are
in no order by them, in whatever order they stand. -/
theorem prices_in_a_circle :
    ∃ ten text nine : Object,
      (readBack .exampleOrg pricedWares (wareQuads [("ex:a", some "10"), ("ex:b", some "5.5"),
        ("ex:c", some "9")])).toOption = some [ten, text, nine] ∧
      compareObjects pricedWares.orderBy ten text = .lt ∧
      compareObjects pricedWares.orderBy text nine = .lt ∧
      compareObjects pricedWares.orderBy nine ten = .lt ∧
      ∀ arranged : List Object, arranged.Perm [ten, text, nine] →
        ¬ arranged.Pairwise fun a b => (compareObjects pricedWares.orderBy a b).isLE := by
  refine ⟨ware "ex:a" (some (.num (.int 10))), ware "ex:b" (some (.str "5.5")),
    ware "ex:c" (some (.num (.int 9))), by decide +kernel, by decide +kernel, by decide +kernel,
    by decide +kernel, fun arranged h => ?_⟩
  have hnone : ∀ arranged ∈ List.permutations' [ware "ex:a" (some (.num (.int 10))),
      ware "ex:b" (some (.str "5.5")), ware "ex:c" (some (.num (.int 9)))],
      ¬ arranged.Pairwise fun a b => (compareObjects pricedWares.orderBy a b).isLE := by
    decide +kernel
  exact hnone arranged (List.mem_permutations'.mpr h)

end ObjectGraph.Decode
