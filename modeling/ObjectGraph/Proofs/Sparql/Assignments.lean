import Mathlib.Data.List.Nodup
import ObjectGraph.Proofs.Sparql.Blocks

/-!
# Assignments at the end of a group

An assignment gives a variable the value that an expression has at that place.  If the
assignments come last, each to a variable of its own that nothing before them binds, and no
expression reads a variable that one of them assigns (`Expression.Reads`), then the order does
not matter: each variable has the value of its expression under the whole solution
(`groupSolutions_assign`).
-/

namespace ObjectGraph.Sparql

variable {E : Engine} {G : Rdf.Graph}

/-- An expression has the same value wherever the variables of `V` have the same terms. -/
def Expression.Reads (E : Engine) (V : Var → Prop) (e : Expression) : Prop :=
  ∀ (G : Rdf.Graph) (μ ν : Solution), (∀ v, V v → μ v = ν v) → e.value? E G μ = e.value? E G ν

/-- An expression that reads some variables reads no more than a wider range of them. -/
theorem Expression.Reads.mono {V V' : Var → Prop} {e : Expression} (h : e.Reads E V)
    (himp : ∀ v, V v → V' v) : e.Reads E V' :=
  fun G μ ν hagree => h G μ ν fun v hv => hagree v (himp v hv)

/-- Assignments as patterns. -/
def assign (assignments : List (Expression × Var)) : List Pattern :=
  assignments.map fun b => .bind b.1 b.2

/-- **A run of assignments.**  Nothing else changes, and each variable has the value that its
expression has at the end. -/
theorem extendAll_assign {assignments : List (Expression × Var)} {Ω : Set Solution}
    {ρ : Solution} (hnodup : (assignments.map Prod.snd).Nodup)
    (hreads : ∀ b ∈ assignments, b.1.Reads E (· ∉ assignments.map Prod.snd))
    (hopen : ∀ μ ∈ Ω, ∀ b ∈ assignments, μ b.2 = none)
    (hρ : ρ ∈ extendAll E G (assign assignments) Ω) :
    ∃ μ ∈ Ω, (∀ v, v ∉ assignments.map Prod.snd → ρ v = μ v) ∧
      ∀ b ∈ assignments, ρ b.2 = b.1.value? E G ρ := by
  induction assignments generalizing Ω with
  | nil => exact ⟨ρ, hρ, fun _ _ => rfl, nofun⟩
  | cons b rest ih =>
      obtain ⟨hb, hrest⟩ := List.nodup_cons.mp hnodup
      rw [assign, List.map_cons, extendAll, Pattern.extend] at hρ
      have hfree : ∀ μ ∈ {ρ | ∃ μ ∈ Ω, ρ = μ.set b.2 (b.1.value? E G μ)}, ∀ b' ∈ rest,
          μ b'.2 = none := by
        rintro _ ⟨μ, hμ, rfl⟩ b' hb'
        have hne : b'.2 ≠ b.2 := fun heq => hb (heq ▸ List.mem_map_of_mem hb')
        rw [Solution.set_of_ne hne]
        exact hopen μ hμ b' (List.mem_cons_of_mem _ hb')
      have hsub : ∀ v, v ∉ (b :: rest).map Prod.snd → v ∉ rest.map Prod.snd :=
        fun v hv hmem => hv (List.mem_cons_of_mem _ hmem)
      obtain ⟨_, ⟨μ, hμ, rfl⟩, hsame, hvalues⟩ := ih hrest
        (fun b' hb' => (hreads b' (List.mem_cons_of_mem _ hb')).mono hsub) hfree hρ
      have hkept : ∀ v, v ∉ (b :: rest).map Prod.snd → ρ v = μ v := by
        intro v hv
        have hne : v ≠ b.2 := by
          rintro rfl
          exact hv List.mem_cons_self
        rw [hsame v (hsub v hv), Solution.set_of_ne hne]
      refine ⟨μ, hμ, hkept, fun b' hb' => ?_⟩
      rcases List.mem_cons.mp hb' with rfl | hb'
      · rw [hsame _ hb, Solution.set_self (hopen μ hμ _ List.mem_cons_self)]
        exact (hreads _ List.mem_cons_self G ρ μ hkept).symm
      · exact hvalues b' hb'

/-- **Assignments at the end of a group.** -/
theorem groupSolutions_assign (hE : E.CutsOnly) {front : List Pattern}
    {assignments : List (Expression × Var)} {ρ : Solution}
    (hnodup : (assignments.map Prod.snd).Nodup)
    (hreads : ∀ b ∈ assignments, b.1.Reads E (· ∉ assignments.map Prod.snd))
    (hopen : ∀ b ∈ assignments, b.2 ∉ groupScope front)
    (hρ : ρ ∈ groupSolutions E G (front ++ assign assignments)) :
    ∀ b ∈ assignments, ρ b.2 = b.1.value? E G ρ := by
  have hrun : ρ ∈ extendAll E G (assign assignments) (extendAll E G front {.empty}) := by
    rw [← extendAll_append]
    exact hρ.1
  have hfree : ∀ μ ∈ extendAll E G front {.empty}, ∀ b ∈ assignments, μ b.2 = none := by
    intro μ hμ b hb
    by_contra hne
    exact hopen b hb (group_confined hE front G μ hμ _ (Option.isSome_iff_ne_none.mpr hne))
  obtain ⟨-, -, -, hvalues⟩ := extendAll_assign hnodup hreads hfree hrun
  exact hvalues

end ObjectGraph.Sparql
