import Mathlib.Data.List.Basic
import ObjectGraph.Namespaces

/-!
# Splitting IRIs

Where an IRI is split, the stem of the prefix and the part behind it make the IRI
again (`split?_spec`), so a compact form says which IRI it is short for as long as
its prefix can be read back from it.  Where no prefix name hides a colon or a slash,
an IRI that reads as itself also returns from its short form (`returns_of_expand`).
-/

namespace ObjectGraph

namespace Iri

variable {stem s rest : String}

/-- A stem in front of a text leaves the rest of it. -/
theorem localPart?_eq_some :
    localPart? stem s = some rest ↔
      stem ++ rest = s ∧ rest ≠ "" ∧ startsAuthority rest.toList = false := by
  have hlists : stem.toList ++ rest.toList = s.toList ↔ stem ++ rest = s := by
    rw [← String.toList_append, String.toList_inj]
  unfold localPart?
  constructor
  · intro h
    cases hstart : stem.toList.isPrefixOf? s.toList with
    | none => simp [hstart] at h
    | some cs =>
        simp only [hstart] at h
        split at h
        next => cases h
        next hkept =>
          obtain rfl := Option.some.inj h
          have hcs : (String.ofList cs).toList = cs := String.toList_ofList
          rw [Bool.or_eq_true, not_or, Bool.not_eq_true] at hkept
          refine ⟨hlists.mp ?_, ?_, ?_⟩
          · rw [hcs]
            exact List.isPrefixOf?_eq_some_iff_append_eq.mp hstart
          · intro hempty
            rw [hempty] at hcs
            simp [← hcs] at hkept
          · rw [hcs]
            simpa using hkept.2
  · rintro ⟨happend, hrest, hauthority⟩
    rw [List.isPrefixOf?_eq_some_iff_append_eq.mpr (hlists.mpr happend)]
    have hempty : rest.toList.isEmpty = false := by
      simpa [List.isEmpty_iff] using hrest
    simp [hempty, hauthority, String.ofList_toList]

/-- The shortest of several candidates is one of them. -/
theorem shortest?_mem {candidates : List (String × String)} {c : String × String}
    (h : shortest? candidates = some c) : c ∈ candidates := by
  have hfold : ∀ (cs : List (String × String)) (best : Option (String × String)),
      cs.foldl shorter best = some c → best = some c ∨ c ∈ cs := by
    intro cs
    induction cs with
    | nil => exact fun best h => .inl h
    | cons d rest ih =>
        intro best h
        rcases ih _ h with hbest | hmem
        · unfold shorter at hbest
          split at hbest
          · exact .inr (Option.some.inj hbest ▸ List.mem_cons_self)
          · split at hbest
            · exact .inr (Option.some.inj hbest ▸ List.mem_cons_self)
            · exact .inl hbest
        · exact .inr (List.mem_cons_of_mem _ hmem)
  rcases hfold candidates none h with hnone | hmem
  · cases hnone
  · exact hmem

/-- A name without colon and slash is read back from in front of a colon. -/
theorem compactParts?_append {name : String} (hname : name ≠ "") (hcolon : ':' ∉ name.toList)
    (hslash : '/' ∉ name.toList) (hrest : startsAuthority rest.toList = false) :
    compactParts? (name ++ ":" ++ rest) = some (name, rest) := by
  have hfree : ∀ c ∈ name.toList, (c != ':') = true := by
    intro c hc
    simpa using fun heq : c = ':' => hcolon (heq ▸ hc)
  have hlist : (name ++ ":" ++ rest).toList = name.toList ++ ':' :: rest.toList := by
    simp
  have hat : atColon? (name ++ ":" ++ rest) = some (name.toList, rest.toList) := by
    unfold atColon?
    rw [hlist, List.dropWhile_append_of_pos hfree, List.takeWhile_append_of_pos hfree]
    simp
  have hempty : name.toList.isEmpty = false := by
    simpa [List.isEmpty_iff] using hname
  simp [compactParts?, hat, hempty, hslash, hrest, String.ofList_toList]

/-- A full IRI is no keyword. -/
theorem isKeyword_of_isAbsolute {w : String} (h : isAbsolute w = true) :
    isKeyword w = false := by
  unfold isAbsolute atColon? at h
  unfold isKeyword
  cases hw : w.toList with
  | nil => rfl
  | cons c rest =>
      have hat : c ≠ '@' := by
        rintro rfl
        rw [hw] at h
        cases hrest : ('@' :: rest).dropWhile (· != ':') with
        | nil => simp [hrest] at h
        | cons d more =>
            rw [hrest] at h
            simp at h
      simpa using hat

/-- What stands in front of the colon of a compact form starts it. -/
theorem isKeyword_of_parts {w name rest : String}
    (hparts : compactParts? w = some (name, rest)) :
    isKeyword w = isKeyword name := by
  unfold compactParts? at hparts
  split at hparts
  next => cases hparts
  next front behind hat =>
    split at hparts
    next => cases hparts
    next hkept =>
      obtain ⟨rfl, -⟩ := Prod.mk.inj (Option.some.inj hparts)
      have hfront : w.toList.takeWhile (· != ':') = front := by
        unfold atColon? at hat
        split at hat
        · cases hat
        · exact (Prod.mk.inj (Option.some.inj hat)).1
      have hsplit : w.toList = front ++ w.toList.dropWhile (· != ':') := by
        rw [← hfront, List.takeWhile_append_dropWhile]
      cases front with
      | nil => simp at hkept
      | cons c front =>
          unfold isKeyword
          rw [hsplit, String.toList_ofList]
          rfl

end Iri

namespace Namespaces

variable {ns : Namespaces} {name stem iri rest : String}

/-- No prefix has two stems. -/
theorem nodup_names (ns : Namespaces) : (ns.entries.map Prod.fst).Nodup := by
  have h : ns.entries.Pairwise fun a b => a.1 ≠ b.1 := by
    refine ns.sorted.imp ?_
    intro a b hlt heq
    rw [heq] at hlt
    exact String.lt_irrefl _ hlt
  exact List.pairwise_map.mpr h

/-- A name stands for the stem that is entered with it. -/
theorem get?_eq_some : ns.get? name = some stem ↔ (name, stem) ∈ ns.entries := by
  have hnodup := ns.nodup_names
  unfold get?
  constructor
  · intro h
    obtain ⟨e, he, rfl⟩ := Option.map_eq_some_iff.mp h
    have hname : e.1 = name := by simpa using List.find?_some he
    exact hname ▸ List.mem_of_find?_eq_some he
  · intro h
    generalize ns.entries = es at h hnodup ⊢
    induction es with
    | nil => cases h
    | cons e rest ih =>
        obtain ⟨hfirst, hrest⟩ := List.nodup_cons.mp hnodup
        rcases List.mem_cons.mp h with rfl | hmem
        · simp
        · have hne : e.1 ≠ name := fun heq =>
            hfirst (heq ▸ List.mem_map_of_mem (f := Prod.fst) hmem)
          rw [List.find?_cons_of_neg (by simpa using hne)]
          exact ih hmem hrest

/-- **A split IRI is the stem of the prefix with the part behind it.** -/
theorem split?_spec (h : ns.split? iri = some (name, rest)) :
    ∃ stem, ns.get? name = some stem ∧ stem ++ rest = iri ∧ rest ≠ "" ∧
      Iri.startsAuthority rest.toList = false := by
  obtain ⟨e, he, hcandidate⟩ := List.mem_filterMap.mp (Iri.shortest?_mem h)
  unfold candidate? at hcandidate
  split at hcandidate
  next => cases hcandidate
  next =>
    obtain ⟨cs, hlocal, heq⟩ := Option.map_eq_some_iff.mp hcandidate
    cases heq
    exact ⟨e.2, get?_eq_some.mpr he, Iri.localPart?_eq_some.mp hlocal⟩

/-- A prefix name that compact forms are read back with. -/
structure Readable (name : String) : Prop where
  nonempty : name ≠ ""
  colon : ':' ∉ name.toList
  slash : '/' ∉ name.toList

/-- Whether an IRI that is written in short form and expanded twice comes back. -/
def Returns (ns : Namespaces) (iri : String) : Prop :=
  ns.expand (ns.expand (ns.abbreviate iri)) = iri

/-- An IRI that is split is read back from its short form. -/
theorem expand_abbreviate (hnames : ∀ e ∈ ns.entries, Readable e.1)
    (h : ns.split? iri = some (name, rest)) : ns.expand (ns.abbreviate iri) = iri := by
  obtain ⟨stem, hstem, happend, -, hauthority⟩ := split?_spec h
  have hname := hnames _ (get?_eq_some.mp hstem)
  have hparts :=
    Iri.compactParts?_append hname.nonempty hname.colon hname.slash hauthority
  rw [show ns.abbreviate iri = name ++ ":" ++ rest by simp [abbreviate, h]]
  simp [expand, hparts, hstem, happend]

/-- An IRI that is no compact form for another one returns. -/
theorem returns_of_expand (hnames : ∀ e ∈ ns.entries, Readable e.1) (h : ns.expand iri = iri) :
    ns.Returns iri := by
  unfold Returns
  cases hsplit : ns.split? iri with
  | some parts => rw [expand_abbreviate hnames hsplit, h]
  | none =>
      rw [show ns.abbreviate iri = iri by simp [abbreviate, hsplit], h, h]

end Namespaces

end ObjectGraph
