import Mathlib.Data.List.Induction
import ObjectGraph.Proofs.Compile.Demand
import ObjectGraph.Proofs.Compile.Growth
import ObjectGraph.Proofs.Compile.SharedNames

/-!
# Two runs of one entity

An entity is compiled from the names that are in use.  Two runs from different allocators draw
the same variables under different names (`Matched`), and no step depends on the names
(`Draft.Alike`), as long as the names of `W`, which the user chose, mean the same in both: a
text is given such a name only if it asks for it, and then always (`Obeys`), and no witness of
a test for existence has one (`Draft.Heeds`).  A run in which these names are shared from the
start always obeys (`Reserves.obeys`, `Reserves.heeds`), and so does any run if there are none.

The renaming is not known before the runs end.  The invariant lists the pairs of variables
that were drawn so far and says how the drafts correspond under every renaming that maps
one of each pair to the other and leaves the names of `W` alone.
-/

namespace ObjectGraph

open Allocator (nameOf varOf)
open Sparql (Var Term Triple Expression Renaming)

/-! ## Renaming fragments -/

namespace KeyVars

/-- The name that the variable of a name gets. -/
def renamedName (ρ : Renaming) (name : String) : String :=
  (ρ ⟨name⟩).name

/-- Different names are renamed to different ones. -/
theorem renamedName_inj (ρ : Renaming) (n l : String) (h : renamedName ρ n = renamedName ρ l) :
    n = l :=
  congrArg Var.name (ρ.injective (congrArg Var.mk h : ρ ⟨n⟩ = ρ ⟨l⟩))

/-- An index goes on to mirror its entries when both are renamed. -/
theorem Mirrors.rename {index : Assoc String} {entries : Assoc Var} (h : Mirrors index entries)
    (ρ : Renaming) :
    Mirrors (index.map (Prod.map (renamedName ρ) id)) (entries.map (Prod.map id ρ)) where
  keys := by simpa [Assoc.keys, Function.comp_def] using h.keys
  names := by
    have hkeys : Assoc.keys (index.map (Prod.map (renamedName ρ) id)) =
        (Assoc.keys index).map (renamedName ρ) := by
      simp [Assoc.keys, Function.comp_def]
    rw [hkeys]
    exact h.names.map (renamedName_inj ρ)
  agree key x := by
    rw [List.mem_map, List.mem_map]
    constructor
    · rintro ⟨⟨n, k⟩, he, heq⟩
      obtain ⟨hname, rfl⟩ := Prod.mk.inj heq
      exact ⟨(k, ⟨n⟩), (h.agree k ⟨n⟩).mp he, congrArg (Prod.mk k) (congrArg Var.mk hname)⟩
    · rintro ⟨⟨k, y⟩, he, heq⟩
      obtain ⟨rfl, rfl⟩ := Prod.mk.inj heq
      exact ⟨(y.name, k), (h.agree k y).mpr he, rfl⟩

def rename (ρ : Renaming) (m : KeyVars) : KeyVars :=
  ⟨m.entries.map (Prod.map id ρ), m.index.map (Prod.map (renamedName ρ) id), m.mirrors.rename ρ⟩

/-- A variable can be renamed before or after it is entered. -/
theorem rename_insert (ρ : Renaming) (m : KeyVars) (key : String) (x : Var) :
    (m.insert key x).rename ρ = (m.rename ρ).insert key (ρ x) := by
  apply KeyVars.ext
  · have hkept : (m.entries.map (Prod.map id ρ)).filter (fun e => e.1 == key || e.2 != ρ x) =
        (m.entries.filter fun e => e.1 == key || e.2 != x).map (Prod.map id ρ) := by
      rw [List.filter_map]
      congr 2
      funext e
      have hsame : (ρ e.2 == ρ x) = (e.2 == x) := by
        rw [Bool.eq_iff_iff]
        simp
      simp [bne, hsame]
    change (m.insert key x).entries.map (Prod.map id ρ) = _
    rw [entries_insert, entries_insert, Assoc.map_insert (g := id) (fun _ _ h => h)]
    exact congrArg (Assoc.insert · key (ρ x)) hkept.symm
  · have hkept : (m.index.map (Prod.map (renamedName ρ) id)).filter (fun e => e.2 != key) =
        (m.index.filter fun e => e.2 != key).map (Prod.map (renamedName ρ) id) := by
      rw [List.filter_map]
      rfl
    change (m.insert key x).index.map (Prod.map (renamedName ρ) id) = _
    rw [index_insert, index_insert, Assoc.map_insert (renamedName_inj ρ)]
    exact congrArg (Assoc.insert · (renamedName ρ x.name) key) hkept.symm

@[simp] theorem rename_empty (ρ : Renaming) : empty.rename ρ = empty := rfl

/-- Renaming leaves the keys as they are. -/
theorem contains_rename (ρ : Renaming) (m : KeyVars) (key : String) :
    (m.rename ρ).contains key = m.contains key := by
  change Assoc.contains (m.entries.map (Prod.map id ρ)) key = Assoc.contains m.entries key
  unfold Assoc.contains
  induction m.entries with
  | nil => rfl
  | cons e rest ih =>
      rw [List.map_cons, Assoc.get?, Assoc.get?]
      by_cases h : e.1 = key <;> simp [h, ih]

end KeyVars

/-- A fragment with its variables renamed.  The keys that are selected and deferred, their
order and the service stay. -/
def Fragment.rename (ρ : Renaming) (f : Fragment) : Fragment :=
  { f with
    subject := f.subject.rename ρ
    mandatory := f.mandatory.map (Triple.rename ρ)
    optional := f.optional.map (Triple.rename ρ)
    filters := f.filters.map (Expression.rename ρ)
    binds := f.binds.map fun b => (b.1.rename ρ, ρ b.2)
    props := f.props.rename ρ
    hidden := f.hidden.rename ρ
    bindVars := f.bindVars.rename ρ
    typeVar := f.typeVar.map ρ
    bindTemplate := f.bindTemplate.map (Triple.rename ρ) }

namespace MostSpecificType

/-- The patterns that bind the most specific type, with their variables renamed. -/
def rename (ρ : Renaming) (type : MostSpecificType) : MostSpecificType :=
  ⟨ρ type.typeVar, type.triple.rename ρ, type.filters.map (Expression.rename ρ)⟩

theorem noNarrower_rename (subject : Term) (type subtype : Var) (ρ : Renaming) :
    (noNarrower subject type subtype).rename ρ =
      noNarrower (subject.rename ρ) (ρ type) (ρ subtype) := rfl

theorem under_rename (type supertype : Var) (class_ : String) (ρ : Renaming) :
    (under type supertype class_).rename ρ = under (ρ type) (ρ supertype) class_ := rfl

theorem ofType_rename (subject object : Term) (ρ : Renaming) :
    (Triple.ofType subject object).rename ρ =
      .ofType (subject.rename ρ) (object.rename ρ) := rfl

end MostSpecificType

theorem exactType_rename (subject : Term) (class_ : String) (ρ : Renaming) :
    (exactType subject class_).rename ρ = exactType (subject.rename ρ) class_ := rfl

/-- A computed key has no variables in its test but those of the names that it writes. -/
theorem BindRelation.test_rename (relation : BindRelation) (ns : Namespaces)
    {triples : List BindTriple} {ρ : Renaming}
    (hfixed : ∀ name ∈ (Condition.computed relation triples).writtenNames,
      ρ (varOf name) = varOf name) :
    (relation.test ns triples).rename ρ = relation.test ns triples := by
  have hposition : ∀ s, (∀ name, Sparql.sharedName? s = some name → ρ (varOf name) = varOf name) →
      (BindTriple.position ns s).rename ρ = BindTriple.position ns s ∧
        (BindTriple.relation ns s).rename ρ = BindTriple.relation ns s := by
    intro s hs
    unfold BindTriple.position BindTriple.relation
    cases hname : Sparql.sharedName? s with
    | none => exact ⟨rfl, rfl⟩
    | some name => exact ⟨congrArg Term.var (hs name hname), congrArg _ (hs name hname)⟩
  have hpattern : ∀ t ∈ triples, (t.pattern ns).rename ρ = t.pattern ns := by
    intro t ht
    have hnames : ∀ position ∈ [t.subject, t.predicate, t.object], ∀ name,
        Sparql.sharedName? position = some name → ρ (varOf name) = varOf name :=
      fun position hmem name hname => hfixed name (List.mem_filterMap.mpr
        ⟨position, List.mem_flatMap.mpr ⟨t, ht, hmem⟩, hname⟩)
    simp only [BindTriple.pattern, Triple.rename]
    rw [(hposition _ (hnames t.subject (by simp))).1,
      (hposition _ (hnames t.predicate (by simp))).2, (hposition _ (hnames t.object (by simp))).1]
  have hgroup : (triples.map (BindTriple.pattern ns)).map (Triple.rename ρ) =
      triples.map (BindTriple.pattern ns) := by
    rw [List.map_map]
    exact List.map_congr_left hpattern
  cases relation <;>
    simp only [test, Expression.rename, Sparql.renameGroup, Sparql.Pattern.rename, hgroup]

/-! ## Two runs -/

/-- A renaming maps the left one of each pair to the right one and leaves names alone. -/
structure Renames (W : String → Prop) (ρ : Renaming) (pairs : List (Var × Var)) : Prop where
  pairs : ∀ p ∈ pairs, ρ p.1 = p.2
  written : ∀ n, W n → ρ ⟨n⟩ = ⟨n⟩

/-- What renames all of the pairs renames some of them. -/
theorem Renames.mono {W : String → Prop} {ρ : Renaming} {pairs pairs' : List (Var × Var)}
    (h : Renames W ρ pairs') (hsub : pairs ⊆ pairs') : Renames W ρ pairs :=
  ⟨fun p hp => h.pairs p (hsub hp), h.written⟩

/-- A text is given a name of `W` only if that is the name it asks for, and then always. -/
def Obeys (W : String → Prop) (a : Allocator) (s : String) : Prop :=
  W (a.join s).1.name ∨ W (nameOf s) → (a.join s).1.name = nameOf s

/-- Whether a condition only asks if a key has some value. -/
def Condition.isTest : Condition → Bool
  | .related relation _ => relation.isExistence
  | .value _ | .shared _ | .computed _ _ => false

/-- If no name is reserved then every text obeys. -/
theorem obeys_of_none {W : String → Prop} (hW : ∀ n, ¬ W n) (a : Allocator) (s : String) :
    Obeys W a s := fun h => (h.elim (hW _) (hW _)).elim

/-- A text obeys allocators that share the reserved names for good. -/
theorem Reserves.obeys {W : String → Prop} {a : Allocator} (h : Reserves W a) (s : String) :
    Obeys W a s :=
  Draft.name_of_join h.ready h.shared s

/-- Two allocators have handed out variables in pairs, apart from the names of `W`. -/
structure Matched (W : String → Prop) (pairs : List (Var × Var)) (a b : Allocator) : Prop where
  sharedLeft : ∀ n ∈ a.shared, W n
  sharedRight : ∀ n ∈ b.shared, W n
  left : (pairs.map (·.1)).Nodup
  right : (pairs.map (·.2)).Nodup
  usedLeft : ∀ p ∈ pairs, p.1.name ∈ a.used
  usedRight : ∀ p ∈ pairs, p.2.name ∈ b.used
  unwritten : ∀ p ∈ pairs, ¬ W p.1.name ∧ ¬ W p.2.name

namespace Matched

variable {W : String → Prop} {pairs : List (Var × Var)} {a a' b b' : Allocator} {ns : Namespaces}
  {e : Entity}

/-- Two runs start out without a pair. -/
theorem start (ha : ∀ n ∈ a.shared, W n) (hb : ∀ n ∈ b.shared, W n) : Matched W [] a b :=
  ⟨ha, hb, .nil, .nil, by simp, by simp, by simp⟩

/-- Whatever two runs have drawn, there is a renaming from the one to the other. -/
theorem exists_renames (h : Matched W pairs a b) : ∃ ρ, Renames W ρ pairs := by
  obtain ⟨ρ, hρ, hfixed⟩ :=
    Sparql.exists_renaming_fixing (fun v => W v.name) pairs h.left h.right h.unwritten
  exact ⟨ρ, hρ, fun n hn => hfixed ⟨n⟩ hn⟩

/-- More names may be used up. -/
theorem mono (h : Matched W pairs a b) (ha : ∀ n ∈ a'.shared, W n) (hb : ∀ n ∈ b'.shared, W n)
    (hleft : a.used ⊆ a'.used) (hright : b.used ⊆ b'.used) : Matched W pairs a' b' where
  sharedLeft := ha
  sharedRight := hb
  left := h.left
  right := h.right
  usedLeft p hp := hleft (h.usedLeft p hp)
  usedRight p hp := hright (h.usedRight p hp)
  unwritten := h.unwritten

/-- Both draw a fresh variable, neither of which the user named. -/
theorem fresh (h : Matched W pairs a b) {s t : String} (hleft : ¬ W (a.fresh s).1.name)
    (hright : ¬ W (b.fresh t).1.name) :
    Matched W (((a.fresh s).1, (b.fresh t).1) :: pairs) (a.fresh s).2 (b.fresh t).2 where
  sharedLeft := h.sharedLeft
  sharedRight := h.sharedRight
  left := by
    refine List.nodup_cons.mpr ⟨fun hmem => ?_, h.left⟩
    obtain ⟨p, hp, heq : p.1 = (a.fresh s).1⟩ := List.mem_map.mp hmem
    exact a.fresh_not_mem s (heq ▸ h.usedLeft p hp)
  right := by
    refine List.nodup_cons.mpr ⟨fun hmem => ?_, h.right⟩
    obtain ⟨p, hp, heq : p.2 = (b.fresh t).1⟩ := List.mem_map.mp hmem
    exact b.fresh_not_mem t (heq ▸ h.usedRight p hp)
  usedLeft p hp := by
    rcases List.mem_cons.mp hp with rfl | hp
    · exact List.mem_cons_self
    · exact List.mem_cons_of_mem _ (h.usedLeft p hp)
  usedRight p hp := by
    rcases List.mem_cons.mp hp with rfl | hp
    · exact List.mem_cons_self
    · exact List.mem_cons_of_mem _ (h.usedRight p hp)
  unwritten := List.forall_mem_cons.mpr ⟨⟨hleft, hright⟩, h.unwritten⟩

/-- Both share a name of the user. -/
theorem share (h : Matched W pairs a b) {s : String} (hs : W (nameOf s)) :
    Matched W pairs (a.share s).2 (b.share s).2 :=
  h.mono (List.forall_mem_cons.mpr ⟨hs, h.sharedLeft⟩)
    (List.forall_mem_cons.mpr ⟨hs, h.sharedRight⟩) (List.subset_cons_self _ _)
    (List.subset_cons_self _ _)

/-- Both are given the user's name that they ask for, or draw a fresh variable. -/
theorem join (h : Matched W pairs a b) {s : String} (hleft : Obeys W a s) (hright : Obeys W b s) :
    ∃ pairs', pairs ⊆ pairs' ∧ Matched W pairs' (a.join s).2 (b.join s).2 ∧
      ∀ ρ, Renames W ρ pairs' → (b.join s).1 = ρ (a.join s).1 := by
  have hgrows : ∀ c : Allocator, c.used ⊆ (c.join s).2.used ∧ (c.join s).2.shared = c.shared := by
    intro c
    rcases c.join_cases s with ⟨-, heq⟩ | ⟨-, heq⟩
    · rw [heq]
      exact ⟨List.Subset.refl _, rfl⟩
    · rw [heq]
      exact ⟨List.subset_cons_self _ _, rfl⟩
  by_cases hs : W (nameOf s)
  · refine ⟨pairs, List.Subset.refl _, ?_, fun ρ hρ => ?_⟩
    · exact h.mono ((hgrows a).2 ▸ h.sharedLeft) ((hgrows b).2 ▸ h.sharedRight) (hgrows a).1
        (hgrows b).1
    · have hsame : ∀ c, Obeys W c s → (c.join s).1 = ⟨nameOf s⟩ := fun c hc =>
        congrArg Var.mk (hc (.inr hs))
      rw [hsame a hleft, hsame b hright, hρ.written _ hs]
  · have hdraw : ∀ c, Obeys W c s → (∀ n ∈ c.shared, W n) →
        c.join s = c.fresh (nameOf s) ∧ ¬ W (c.join s).1.name := by
      intro c hc hshared
      refine ⟨?_, fun hW => hs (hc (.inl hW) ▸ hW)⟩
      exact ((c.join_cases s).resolve_left fun hmem => hs (hshared _ hmem.1)).2
    obtain ⟨ha, hfreshLeft⟩ := hdraw a hleft h.sharedLeft
    obtain ⟨hb, hfreshRight⟩ := hdraw b hright h.sharedRight
    rw [ha] at hfreshLeft
    rw [hb] at hfreshRight
    rw [ha, hb]
    exact ⟨_, List.subset_cons_self _ _, h.fresh hfreshLeft hfreshRight, fun ρ hρ =>
      (hρ.pairs _ List.mem_cons_self).symm⟩

/-- The variable of a key: the one that the user named, or one for what the key asks for. -/
theorem varFor (h : Matched W pairs a b) (e : Entity) (key : String) {c : Option Condition}
    (hwithin : ∀ name, c = some (.shared name) → W (nameOf name))
    (hobeys : (∀ name, c ≠ some (.shared name)) →
      Obeys W a (key ++ toString e.index) ∧ Obeys W b (key ++ toString e.index)) :
    ∃ pairs', pairs ⊆ pairs' ∧
      Matched W pairs' (Draft.varFor e key c a).2 (Draft.varFor e key c b).2 ∧
      ∀ ρ, Renames W ρ pairs' → (Draft.varFor e key c b).1 = ρ (Draft.varFor e key c a).1 := by
  unfold Draft.varFor
  split
  next name =>
    refine ⟨pairs, List.Subset.refl _, h.share (hwithin name rfl), fun ρ hρ => ?_⟩
    exact (hρ.written _ (hwithin name rfl)).symm
  next hc =>
    obtain ⟨hleft, hright⟩ := hobeys fun name heq => hc name heq
    exact h.join hleft hright

/-- Both share the names that the triples of a computed key write. -/
theorem bindTriples (h : Matched W pairs a b) (ns : Namespaces) {relation : BindRelation}
    {triples : List BindTriple} (hwithin : (Condition.computed relation triples).Within W) :
    Matched W pairs (Draft.bindTriples ns triples a).2 (Draft.bindTriples ns triples b).2 := by
  have hterm : ∀ {a b}, Matched W pairs a b → ∀ s,
      (∀ name, Sparql.sharedName? s = some name → W (nameOf name)) →
        Matched W pairs (Draft.bindTerm ns s a).2 (Draft.bindTerm ns s b).2 := by
    intro a b h s hs
    unfold Draft.bindTerm
    cases hname : Sparql.sharedName? s with
    | none => exact h
    | some name => exact h.share (hs name hname)
  induction triples generalizing a b with
  | nil => exact h
  | cons t rest ih =>
      have hposition : ∀ s ∈ [t.subject, t.predicate, t.object], ∀ name,
          Sparql.sharedName? s = some name → W (nameOf name) := fun s hs name hname =>
        hwithin name (List.mem_filterMap.mpr ⟨s, List.mem_append_left _ hs, hname⟩)
      unfold Draft.bindTriples
      dsimp only
      rw [Draft.bindPredicate_alloc, Draft.bindPredicate_alloc]
      refine ih (hterm (hterm (hterm h t.predicate (hposition _ (by simp))) t.subject
        (hposition _ (by simp))) t.object (hposition _ (by simp))) fun name hname => hwithin name ?_
      obtain ⟨s, hs, hshared⟩ := List.mem_filterMap.mp hname
      exact List.mem_filterMap.mpr ⟨s, List.mem_append_right _ hs, hshared⟩

/-- The filters of one condition on variables that correspond. -/
theorem conditionFilter (h : Matched W pairs a b) (ns : Namespaces) (e : Entity) (s s' : Term)
    (m : Mapping) (key : String) (x x' : Var) (c : Condition)
    (hwitness : c.isTest = true →
      ¬ W (a.fresh (key ++ "Exist" ++ toString e.index)).1.name ∧
        ¬ W (b.fresh (key ++ "Exist" ++ toString e.index)).1.name) :
    ∃ pairs', pairs ⊆ pairs' ∧
      Matched W pairs' (Draft.conditionFilter ns e s m key x c a).2
        (Draft.conditionFilter ns e s' m key x' c b).2 ∧
      ∀ ρ, Renames W ρ pairs' → s' = s.rename ρ → x' = ρ x →
        (Draft.conditionFilter ns e s' m key x' c b).1 =
          (Draft.conditionFilter ns e s m key x c a).1.map (Expression.rename ρ) := by
  unfold Draft.conditionFilter
  cases c with
  | shared | computed => exact ⟨pairs, List.Subset.refl _, h, fun _ _ _ _ => rfl⟩
  | value v =>
      refine ⟨pairs, List.Subset.refl _, h, ?_⟩
      rintro ρ - - rfl
      exact (Filter.equality_rename ns _ x v ρ).symm
  | related relation values =>
      dsimp only
      split
      next hrelation =>
        obtain ⟨hleft, hright⟩ := hwitness hrelation
        rw [Draft.existence_eq, Draft.existence_eq]
        refine ⟨_, List.subset_cons_self _ _, h.fresh hleft hright, ?_⟩
        rintro ρ hρ rfl -
        rw [Option.map_some, Mapping.test_rename, hρ.pairs _ List.mem_cons_self]
      next =>
        refine ⟨pairs, List.Subset.refl _, h, ?_⟩
        rintro ρ - - rfl
        exact (Filter.related_rename ns _ x relation values ρ).symm

/-- The types of subjects that correspond, if the user named nothing. -/
theorem mostSpecificType (h : Matched W pairs a b) (hW : ∀ n, ¬ W n) (s s' : Term)
    (class_ : Option String) (index : Nat) :
    ∃ pairs', pairs ⊆ pairs' ∧
      Matched W pairs' (MostSpecificType.compile s class_ index a).2
        (MostSpecificType.compile s' class_ index b).2 ∧
      ∀ ρ, Renames W ρ pairs' → s' = s.rename ρ →
        (MostSpecificType.compile s' class_ index b).1 =
          (MostSpecificType.compile s class_ index a).1.rename ρ := by
  obtain ⟨types, hsub, htype, hnames⟩ :=
    h.join (obeys_of_none hW a ("type" ++ toString index)) (obeys_of_none hW b _)
  obtain ⟨subtypes, hsub', hsubtype, hnames'⟩ :=
    htype.join (obeys_of_none hW _ ("subtype" ++ toString index)) (obeys_of_none hW _ _)
  unfold MostSpecificType.compile
  cases class_ with
  | none =>
      refine ⟨subtypes, fun p hp => hsub' (hsub hp), hsubtype, ?_⟩
      rintro ρ hρ rfl
      simp only [MostSpecificType.rename, MostSpecificType.noNarrower_rename,
        MostSpecificType.ofType_rename, List.map_cons, List.map_nil, Term.rename_var,
        hnames ρ (hρ.mono hsub'), hnames' ρ hρ]
  | some iri =>
      obtain ⟨supertypes, hsub'', hsupertype, hnames''⟩ :=
        hsubtype.join (obeys_of_none hW _ ("supertype" ++ toString index)) (obeys_of_none hW _ _)
      refine ⟨supertypes, fun p hp => hsub'' (hsub' (hsub hp)), hsupertype, ?_⟩
      rintro ρ hρ rfl
      simp only [MostSpecificType.rename, MostSpecificType.noNarrower_rename,
        MostSpecificType.under_rename, MostSpecificType.ofType_rename, List.map_cons,
        List.map_nil, Term.rename_var, hnames ρ ((hρ.mono hsub'').mono hsub'),
        hnames' ρ (hρ.mono hsub''), hnames'' ρ hρ]

end Matched

/-- Two drafts are alike if one is the other under each renaming of the variables that the
runs have drawn. -/
def Draft.Alike (W : String → Prop) (d d' : Draft) : Prop :=
  ∃ pairs, Matched W pairs d.alloc d'.alloc ∧
    ∀ ρ, Renames W ρ pairs → d'.fragment = d.fragment.rename ρ

/-- Where a condition asks for a name, it is given one of `W` only if it asks for that one, and
then always. -/
structure Draft.Heeds (W : String → Prop) (ns : Namespaces) (e : Entity) (d : Draft)
    (entry : String × Condition) : Prop where
  key : Schema.isKeyword entry.1 = false → d.fragment.props.contains entry.1 = false →
    entry.2.isComputed = true ∨ (entry.2.narrows = true ∧ (e.mapping? ns entry.1).isSome) →
    (∀ name, entry.2 ≠ .shared name) → Obeys W d.alloc (entry.1 ++ toString e.index)
  witness : Schema.isKeyword entry.1 = false → d.fragment.props.contains entry.1 = false →
    (e.mapping? ns entry.1).isSome → entry.2.isTest = true →
    ¬ W (d.alloc.fresh (entry.1 ++ "Exist" ++ toString e.index)).1.name

/-- A run in which the names of the user are shared heeds them. -/
theorem Reserves.heeds {W : String → Prop} {d : Draft} (h : Reserves W d.alloc)
    (ns : Namespaces) (e : Entity) (entry : String × Condition) : d.Heeds W ns e entry where
  key _ _ _ _ := h.obeys _
  witness _ _ _ _ hW := d.alloc.fresh_not_mem _ (h.ready.used _ hW)

/-- Without names of the user every run heeds them. -/
theorem Draft.heeds_of_none {W : String → Prop} (hW : ∀ n, ¬ W n) (ns : Namespaces) (e : Entity)
    (d : Draft) (entry : String × Condition) : d.Heeds W ns e entry where
  key _ _ _ _ := obeys_of_none hW _ _
  witness _ _ _ _ := hW _

namespace Draft.Alike

variable {W : String → Prop} {ns : Namespaces} {config : Config} {options : CompileOptions}
  {e : Entity} {d d' : Draft} {key : String}

/-- The fragment of one of two alike drafts is that of the other, renamed. -/
theorem exists_rename (h : Alike W d d') :
    ∃ ρ : Renaming, (∀ n, W n → ρ ⟨n⟩ = ⟨n⟩) ∧ d'.fragment = d.fragment.rename ρ := by
  obtain ⟨pairs, hpairs, hsame⟩ := h
  obtain ⟨ρ, hρ⟩ := hpairs.exists_renames
  exact ⟨ρ, hρ.written, hsame ρ hρ⟩

/-- A step that draws some more variables. -/
theorem step (h : Alike W d d') {n n' : Draft}
    (hstep : ∀ pairs, Matched W pairs d.alloc d'.alloc → ∃ pairs', pairs ⊆ pairs' ∧
      Matched W pairs' n.alloc n'.alloc ∧ ∀ ρ, Renames W ρ pairs' →
        d'.fragment = d.fragment.rename ρ → n'.fragment = n.fragment.rename ρ) :
    Alike W n n' := by
  obtain ⟨pairs, hpairs, hsame⟩ := h
  obtain ⟨pairs', hsub, hpairs', hnext⟩ := hstep pairs hpairs
  exact ⟨pairs', hpairs', fun ρ hρ => hnext ρ hρ (hsame ρ (hρ.mono hsub))⟩

/-- A step that draws nothing. -/
theorem keep (h : Alike W d d') {f f' : Fragment}
    (hstep : ∀ ρ, d'.fragment = d.fragment.rename ρ → f' = f.rename ρ) :
    Alike W ⟨d.alloc, f⟩ ⟨d'.alloc, f'⟩ :=
  h.step fun pairs hpairs => ⟨pairs, List.Subset.refl _, hpairs, fun ρ _ => hstep ρ⟩

/-- The subjects correspond, and so do the comparisons of the identity. -/
theorem opening {subject subject' : Term} {pairs : List (Var × Var)} {a b : Allocator}
    (hpairs : Matched W pairs a b)
    (hsubject : ∀ ρ, Renames W ρ pairs → subject' = subject.rename ρ) :
    Alike W (Draft.opening ns e subject a) (Draft.opening ns e subject' b) := by
  refine ⟨pairs, by rwa [opening_alloc, opening_alloc], fun ρ hρ => ?_⟩
  obtain rfl := hsubject ρ hρ
  unfold Draft.opening addIdentity
  cases e.condition? "@id" with
  | none => cases subject <;> rfl
  | some c =>
      cases c with
      | value | shared | computed => cases subject <;> rfl
      | related relation values =>
          cases subject with
          | iri | literal | blank => rfl
          | var x =>
              have hfilter := Filter.related_rename ns .iri x relation values ρ
              simp [start, Fragment.rename, ← hfilter, Option.toList_map]

/-- The types correspond; if they are looked for, the user named nothing. -/
theorem addType (h : Alike W d d') (ns : Namespaces)
    (hW : e.resolveType = true → ∀ n, ¬ W n) :
    Alike W (d.addType ns e) (d'.addType ns e) := by
  unfold Draft.addType
  dsimp only
  split
  next hresolve =>
    refine h.step fun pairs hpairs => ?_
    obtain ⟨pairs', hsub, hpairs', htype⟩ := hpairs.mostSpecificType (hW hresolve)
      d.fragment.subject d'.fragment.subject (e.class? ns) e.index
    refine ⟨pairs', hsub, hpairs', fun ρ hρ hsame => ?_⟩
    rw [htype ρ hρ (by rw [hsame]; rfl), hsame]
    simp [Fragment.rename, MostSpecificType.rename, KeyVars.rename_insert]
  next =>
    split
    · refine h.keep fun ρ hsame => ?_
      rw [hsame]
      simp [Fragment.rename, exactType_rename]
    · exact h

/-- A selected key, if the user named nothing. -/
theorem addProperty (h : Alike W d d') (hW : ∀ n, ¬ W n) {m : Mapping}
    (hc : ∀ name, e.condition? key ≠ some (.shared name)) :
    Alike W (addProperty ns e key m d) (addProperty ns e key m d') := by
  have hfragment : ∀ d : Draft, (Draft.addProperty ns e key m d).fragment =
      { d.fragment with
        mandatory :=
          if mustHave e key then d.fragment.mandatory ++ [propertyTriple e key m d]
          else d.fragment.mandatory
        optional :=
          if mustHave e key then d.fragment.optional
          else d.fragment.optional ++ [propertyTriple e key m d]
        filters := d.fragment.filters ++ (propertyFilter ns e key m d).1.toList
        props := d.fragment.props.insert key (varFor e key (e.condition? key) d.alloc).1 } :=
    fun _ => rfl
  refine h.step fun pairs hpairs => ?_
  obtain ⟨drawn, hdrawn, hvar, hnames⟩ := hpairs.varFor e key
    (fun name hname => (hc name hname).elim)
    (fun _ => ⟨obeys_of_none hW _ _, obeys_of_none hW _ _⟩)
  obtain ⟨pairs', hsub, hpairs', hfilter⟩ :
      ∃ pairs', drawn ⊆ pairs' ∧
        Matched W pairs' (propertyFilter ns e key m d).2 (propertyFilter ns e key m d').2 ∧
        ∀ ρ, Renames W ρ pairs' → d'.fragment.subject = d.fragment.subject.rename ρ →
          (propertyFilter ns e key m d').1 =
            (propertyFilter ns e key m d).1.map (Expression.rename ρ) := by
    unfold propertyFilter
    cases hcondition : e.condition? key with
    | none =>
        rw [hcondition] at hvar
        exact ⟨_, List.Subset.refl _, hvar, fun _ _ _ => rfl⟩
    | some c =>
        rw [hcondition] at hvar hnames
        obtain ⟨pairs', hsub, hpairs', hfilter⟩ := hvar.conditionFilter ns e
          d.fragment.subject d'.fragment.subject m key _ _ c fun _ => ⟨hW _, hW _⟩
        exact ⟨pairs', hsub, hpairs', fun ρ hρ hs => hfilter ρ hρ hs (hnames ρ (hρ.mono hsub))⟩
  refine ⟨pairs', fun p hp => hsub (hdrawn hp), hpairs', fun ρ hρ hsame => ?_⟩
  have hx : (varFor e key (e.condition? key) d'.alloc).1 =
      ρ (varFor e key (e.condition? key) d.alloc).1 := hnames ρ (hρ.mono hsub)
  have htriple : propertyTriple e key m d' = (propertyTriple e key m d).rename ρ := by
    rw [propertyTriple, propertyTriple, Mapping.triple_rename, Term.rename_var, hx, hsame]
    rfl
  rw [hfragment, hfragment, hfilter ρ hρ (by rw [hsame]; rfl), htriple, hx, hsame]
  cases mustHave e key <;>
    simp [Fragment.rename, KeyVars.rename_insert, Option.toList_map]

/-- A selected key, if the user named nothing. -/
theorem addSelected (h : Alike W d d') (hW : ∀ n, ¬ W n)
    (hc : ∀ name, e.condition? key ≠ some (.shared name)) :
    Alike W (addSelected ns options e d key) (addSelected ns options e d' key) := by
  obtain ⟨ρ₀, -, hρ₀⟩ := h.exists_rename
  have hshared : d.alloc.isShared key = false ∧ d'.alloc.isShared key = false := by
    obtain ⟨pairs, hpairs, -⟩ := h
    simpa [Allocator.isShared] using
      And.intro (fun hmem => hW _ (hpairs.sharedLeft _ hmem))
        fun hmem => hW _ (hpairs.sharedRight _ hmem)
  unfold Draft.addSelected
  dsimp only
  split
  · have hsubject : d'.fragment.subject = d.fragment.subject.rename ρ₀ := by
      rw [hρ₀]
      rfl
    rw [hsubject]
    cases hterm : d.fragment.subject with
    | iri | literal | blank => exact h
    | var x =>
        refine h.keep fun ρ hsame => ?_
        have hx : ρ₀ x = ρ x := by
          rw [hsame, hterm] at hsubject
          simpa [Fragment.rename, hterm, eq_comm] using hsubject
        rw [hsame]
        simp [Fragment.rename, KeyVars.rename_insert, hx]
  · split
    · exact h
    · split
      · exact h
      · split
        · rw [if_neg (by simp [hshared.1]), if_neg (by simp [hshared.2])]
          exact h
        · split
          · refine h.keep fun ρ hsame => ?_
            rw [hsame]
            rfl
          · split
            · exact h
            · exact h.addProperty hW hc

/-- A condition on a key that is not selected. -/
theorem addHidden (h : Alike W d d') {m : Mapping} {c : Condition} (hnarrows : c.narrows = true)
    (hwithin : c.Within W)
    (hobeys : (∀ name, c ≠ .shared name) →
      Obeys W d.alloc (key ++ toString e.index) ∧ Obeys W d'.alloc (key ++ toString e.index)) :
    Alike W (addHidden ns e key m c d) (addHidden ns e key m c d') := by
  refine h.step fun pairs hpairs => ?_
  have htest : c.isTest = false := by
    cases c with
    | value | shared | computed => rfl
    | related relation values => simpa [Condition.narrows, Condition.isTest] using hnarrows
  obtain ⟨drawn, hdrawn, hvar, hnames⟩ := hpairs.varFor e key (c := some c)
    (fun name hname => hwithin name (by simp [Option.some.inj hname, Condition.writtenNames]))
    (fun hc => hobeys fun name heq => hc name (congrArg some heq))
  obtain ⟨pairs', hsub, hpairs', hfilter⟩ := hvar.conditionFilter ns e d.fragment.subject
    d'.fragment.subject m key (varFor e key (some c) d.alloc).1
    (varFor e key (some c) d'.alloc).1 c fun hc => by simp [htest] at hc
  refine ⟨pairs', fun p hp => hsub (hdrawn hp), hpairs', fun ρ hρ hsame => ?_⟩
  have hx : (varFor e key (some c) d'.alloc).1 = ρ (varFor e key (some c) d.alloc).1 :=
    hnames ρ (hρ.mono hsub)
  unfold Draft.addHidden
  dsimp only
  rw [hfilter ρ hρ (by rw [hsame]; rfl) hx, hx, hsame]
  simp [Fragment.rename, KeyVars.rename_insert, Option.toList_map, Mapping.triple_rename]

/-- A test for existence on a key that is not selected. -/
theorem addExistence (h : Alike W d d') (m : Mapping) (relation : Relation)
    (hleft : ¬ W (d.alloc.fresh (key ++ "Exist" ++ toString e.index)).1.name)
    (hright : ¬ W (d'.alloc.fresh (key ++ "Exist" ++ toString e.index)).1.name) :
    Alike W (addExistence e key m relation d) (addExistence e key m relation d') := by
  refine h.step fun pairs hpairs => ?_
  refine ⟨_, List.subset_cons_self _ _, hpairs.fresh hleft hright, fun ρ hρ hsame => ?_⟩
  have hw : ρ (d.alloc.fresh (key ++ "Exist" ++ toString e.index)).1 =
      (d'.alloc.fresh (key ++ "Exist" ++ toString e.index)).1 := hρ.pairs _ List.mem_cons_self
  unfold Draft.addExistence
  dsimp only
  rw [existence_eq, existence_eq, ← hw, hsame]
  simp [Fragment.rename, Mapping.test_rename]

/-- A computed key. -/
theorem addComputed (h : Alike W d d') {relation : BindRelation} {triples : List BindTriple}
    (hwithin : (Condition.computed relation triples).Within W)
    (hleft : Obeys W d.alloc (key ++ toString e.index))
    (hright : Obeys W d'.alloc (key ++ toString e.index)) :
    Alike W (addComputed ns config e key relation triples d)
      (addComputed ns config e key relation triples d') := by
  refine h.step fun pairs hpairs => ?_
  obtain ⟨pairs', hsub, hjoin, hnames⟩ := hpairs.join hleft hright
  refine ⟨pairs', hsub, hjoin.bindTriples ns hwithin, fun ρ hρ hsame => ?_⟩
  have htest : (relation.test ns triples).rename ρ = relation.test ns triples :=
    relation.test_rename ns fun name hname => hρ.written _ (hwithin name hname)
  rw [addComputed_fragment, addComputed_fragment, hnames ρ hρ, hsame]
  simp [Fragment.rename, KeyVars.rename_insert, htest, Triple.rename, Term.rename,
    Sparql.Predicate.rename]

/-- A condition that both drafts heed. -/
theorem addCondition (h : Alike W d d') {entry : String × Condition} (hwithin : entry.2.Within W)
    (hleft : d.Heeds W ns e entry) (hright : d'.Heeds W ns e entry) :
    Alike W (addCondition ns config e d entry) (addCondition ns config e d' entry) := by
  obtain ⟨key, c⟩ := entry
  obtain ⟨ρ, -, hρ⟩ := h.exists_rename
  have hcontains : d'.fragment.props.contains key = d.fragment.props.contains key := by
    rw [hρ]
    exact KeyVars.contains_rename ρ _ key
  unfold Draft.addCondition
  dsimp only
  rw [hcontains]
  split
  next => exact h
  next hskip =>
    obtain ⟨hkey, hfree⟩ :
        Schema.isKeyword key = false ∧ d.fragment.props.contains key = false := by
      simpa [not_or] using hskip
    have hfree' : d'.fragment.props.contains key = false := hcontains.trans hfree
    cases hmapping : e.mapping? ns key with
    | none =>
        cases c with
        | value | shared | related => exact h
        | computed relation triples =>
            exact h.addComputed hwithin (hleft.key hkey hfree (.inl rfl) nofun)
              (hright.key hkey hfree' (.inl rfl) nofun)
    | some m =>
        have hmapped : (e.mapping? ns key).isSome := by rw [hmapping]; rfl
        have hhidden : c.narrows = true →
            Alike W (Draft.addHidden ns e key m c d) (Draft.addHidden ns e key m c d') :=
          fun hnarrows =>
          h.addHidden hnarrows hwithin fun hc =>
            ⟨hleft.key hkey hfree (.inr ⟨hnarrows, hmapped⟩) hc,
              hright.key hkey hfree' (.inr ⟨hnarrows, hmapped⟩) hc⟩
        cases c with
        | value | shared => exact hhidden rfl
        | computed relation triples =>
            exact h.addComputed hwithin (hleft.key hkey hfree (.inl rfl) nofun)
              (hright.key hkey hfree' (.inl rfl) nofun)
        | related relation values =>
            dsimp only
            split
            next hrelation =>
              exact h.addExistence _ _ (hleft.witness hkey hfree hmapped hrelation)
                (hright.witness hkey hfree' hmapped hrelation)
            next hrelation => exact hhidden (by simpa [Condition.narrows] using hrelation)

/-- What two runs do entry by entry. -/
theorem foldl {α : Type} (h : Alike W d d') (step : Draft → α → Draft) (entries : List α)
    (hstep : ∀ done a rest, entries = done ++ a :: rest →
      Alike W (done.foldl step d) (done.foldl step d') →
        Alike W (step (done.foldl step d) a) (step (done.foldl step d') a)) :
    Alike W (entries.foldl step d) (entries.foldl step d') := by
  have hprefix : ∀ done rest, entries = done ++ rest →
      Alike W (done.foldl step d) (done.foldl step d') := by
    intro done
    induction done using List.reverseRecOn with
    | nil => exact fun _ _ => h
    | append_singleton done a ih =>
        intro rest hentries
        rw [List.append_assoc] at hentries
        rw [List.foldl_concat, List.foldl_concat]
        exact hstep done a rest hentries (ih _ hentries)
  exact hprefix entries [] (List.append_nil _).symm

end Draft.Alike

/-! ## Entities -/

namespace Entity

/-- Wherever compiling an entity asks for a name, its subject and its conditions are given one
of `W` only if they ask for that one, and then always. -/
structure Undisturbed (W : String → Prop) (ns : Namespaces) (config : Config)
    (options : CompileOptions) (e : Entity) (a : Allocator) : Prop where
  subject : e.pin? ns = none → e.identityName? = none →
    Obeys W a ("eIri" ++ toString e.index)
  conditions : ∀ s b done entry rest, e.subjectTerm ns a = .ok (s, b) →
    e.conditions = done ++ entry :: rest →
    (e.restricting ns config options s b done).Heeds W ns e entry

variable {W : String → Prop} {ns : Namespaces} {config : Config} {options : CompileOptions}
  {e : Entity} {a a' b b' : Allocator}

/-- Without names of the user every run is undisturbed. -/
theorem undisturbed_of_none (hW : ∀ n, ¬ W n) (e : Entity) (a : Allocator) :
    e.Undisturbed W ns config options a where
  subject _ _ := obeys_of_none hW _ _
  conditions _ _ _ _ _ _ _ := Draft.heeds_of_none hW _ _ _ _

/-- A run in which the names of the user are shared from the start is undisturbed. -/
theorem undisturbed_of_reserves (ha : Reserves W a)
    (hwithin : ∀ entry ∈ e.conditions, entry.2.Within W) :
    e.Undisturbed W ns config options a where
  subject _ _ := ha.obeys _
  conditions _ _ _ _ _ hs hentries :=
    (restricting_steady ha hwithin hs hentries).reserves.heeds ns e _

/-- Subjects correspond in both runs. -/
theorem subjectTerm_matched (hwithin : ∀ entry ∈ e.conditions, entry.2.Within W)
    (ha : ∀ n ∈ a.shared, W n) (hb : ∀ n ∈ b.shared, W n)
    (hleft : e.Undisturbed W ns config options a) (hright : e.Undisturbed W ns config options b)
    {s s' : Term} (h : e.subjectTerm ns a = .ok (s, a')) (h' : e.subjectTerm ns b = .ok (s', b')) :
    ∃ pairs, Matched W pairs a' b' ∧ ∀ ρ, Renames W ρ pairs → s' = s.rename ρ := by
  have hstart : Matched W [] a b := .start ha hb
  rcases subjectTerm_cases h with
    ⟨iri, hpin, rfl, rfl⟩ | ⟨hpin, name, hc, rfl, rfl⟩ | ⟨hpin, hname, rfl, rfl⟩
  · rw [subjectTerm_of_pin hpin] at h'
    cases h'
    exact ⟨[], hstart, fun _ _ => rfl⟩
  · have hW : W (nameOf name) :=
      hwithin _ (mem_of_condition? hc) name (by simp [Condition.writtenNames])
    rcases subjectTerm_cases h' with
      ⟨iri, hpin', _⟩ | ⟨_, name', hc', rfl, rfl⟩ | ⟨_, hname, _⟩
    · rw [hpin] at hpin'
      cases hpin'
    · obtain rfl : name = name' := by simpa [hc] using hc'
      refine ⟨[], hstart.share hW, fun ρ hρ => ?_⟩
      exact congrArg Term.var (hρ.written _ hW).symm
    · simp [identityName?, hc, Condition.sharedName?] at hname
  · rcases subjectTerm_cases h' with
      ⟨iri, hpin', _⟩ | ⟨_, name', hc', _⟩ | ⟨_, -, rfl, rfl⟩
    · rw [hpin] at hpin'
      cases hpin'
    · simp [identityName?, hc', Condition.sharedName?] at hname
    · obtain ⟨pairs, -, hpairs, hnames⟩ :=
        hstart.join (hleft.subject hpin hname) (hright.subject hpin hname)
      exact ⟨pairs, hpairs, fun ρ hρ => congrArg Term.var (hnames ρ hρ)⟩

/-- **One entity, two allocators.**  An entity is compiled to the same fragment up to a
renaming that leaves the user's names alone, if neither run is disturbed by them; should the
entity select keys or look for its type, there must be none of them. -/
theorem compile_renamed
    (hplain : (∀ n, ¬ W n) ∨ (e.selectedKeys = [] ∧ e.resolveType = false))
    (hwithin : ∀ entry ∈ e.conditions, entry.2.Within W)
    (ha : ∀ n ∈ a.shared, W n) (hb : ∀ n ∈ b.shared, W n)
    (hleft : e.Undisturbed W ns config options a) (hright : e.Undisturbed W ns config options b)
    {f f' : Fragment} (h : e.compile ns config options a = .ok (f, a'))
    (h' : e.compile ns config options b = .ok (f', b')) :
    (∀ n ∈ a'.shared, W n) ∧
      ∃ ρ : Renaming, (∀ n, W n → ρ ⟨n⟩ = ⟨n⟩) ∧ f' = f.rename ρ := by
  obtain ⟨⟨s, a₁⟩, hs⟩ := subjectTerm_of_compile h
  obtain ⟨⟨s', b₁⟩, hs'⟩ := subjectTerm_of_compile h'
  obtain ⟨pairs, hpairs, hsubject⟩ := subjectTerm_matched hwithin ha hb hleft hright hs hs'
  have hopened : Draft.Alike W (Draft.opening ns e s a₁) (Draft.opening ns e s' b₁) :=
    .opening hpairs hsubject
  have htyped := hopened.addType (e := e) ns fun hresolve =>
    hplain.resolve_right fun hnone => by simp [hresolve] at hnone
  have hselected := htyped.foldl (Draft.addSelected ns options e) e.selectedKeys
    fun done key rest hkeys hd => by
      have hW : ∀ n, ¬ W n := hplain.resolve_right fun hnone => by simp [hkeys] at hnone
      refine hd.addSelected hW fun name hc => hW (nameOf name) ?_
      exact hwithin _ (mem_of_condition? hc) name (by simp [Condition.writtenNames])
  have hlast := hselected.foldl (Draft.addCondition ns config e) e.conditions
    fun done entry rest hentries hd => by
      have hentry : entry ∈ e.conditions := by simp [hentries]
      exact hd.addCondition (hwithin entry hentry) (hleft.conditions _ _ done _ rest hs hentries)
        (hright.conditions _ _ done _ rest hs' hentries)
  simp only [compile, hs, hs', bind, Except.bind, Except.ok.injEq, Prod.mk.injEq] at h h'
  obtain ⟨rfl, rfl⟩ := h
  obtain ⟨rfl, rfl⟩ := h'
  obtain ⟨ρ, hfixed, hρ⟩ := hlast.exists_rename
  obtain ⟨_, hmatched, _⟩ := hlast
  refine ⟨hmatched.sharedLeft, ρ, hfixed, ?_⟩
  exact congrArg (fun f : Fragment => { f with selected := e.selectedKeys }) hρ

end Entity

end ObjectGraph
