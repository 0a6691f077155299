import ObjectGraph.Compile.Construct
import ObjectGraph.Proofs.Compile.Slots

/-!
# Variables that two slots have

All names that conditions write behind question marks are shared before the first
entity is compiled, so from then on every variable is one of them or new
(`Ready`, `Draws`).  A step of a draft draws the variable of each slot that it enters, which keeps
the slots apart: through the steps of one entity (`Apart.compile`) and through the
entities of a collection (`Apart.compileEach`).
-/

namespace ObjectGraph

open Sparql (Var Term Expression)

/-- The names that a condition writes behind question marks. -/
def Condition.writtenNames : Condition → List String
  | .shared name => [name]
  | .computed _ triples =>
    (triples.flatMap fun t => [t.subject, t.predicate, t.object]).filterMap Sparql.sharedName?
  | .value _ | .related _ _ => []

def Entity.writtenNames (e : Entity) : List String :=
  e.conditions.flatMap (·.2.writtenNames)

/-- The names that the conditions of a collection write behind question marks. -/
def Collection.writtenNames (c : Collection) : List String :=
  c.entities.flatMap Entity.writtenNames

namespace Entity

/-- Sharing the names of a condition shares those it writes. -/
theorem shareNames_eq (a : Allocator) (c : Condition) :
    shareNames a c = c.writtenNames.foldl (fun a name => (a.share name).2) a := by
  cases c with
  | value | shared | related => rfl
  | computed relation triples =>
      rw [Condition.writtenNames, List.foldl_filterMap, shareNames]
      congr 1
      funext b position
      cases Sparql.sharedName? position <;> rfl

/-- Sharing the names of entities shares all of them, one after the other. -/
theorem shareAll_eq (entities : List Entity) (a : Allocator) :
    shareAll entities a =
      (entities.flatMap writtenNames).foldl (fun a name => (a.share name).2) a := by
  simp only [shareAll, shareNames_eq, List.foldl_flatMap, writtenNames]

end Entity

/-- Sharing names one after the other adds them to those shared and to those used. -/
theorem Allocator.mem_shareEach (names : List String) (a : Allocator) (n : String) :
    (n ∈ (names.foldl (fun a name => (a.share name).2) a).shared ↔
      n ∈ a.shared ∨ ∃ name ∈ names, n = nameOf name) ∧
    (n ∈ (names.foldl (fun a name => (a.share name).2) a).used ↔
      n ∈ a.used ∨ ∃ name ∈ names, n = nameOf name) := by
  induction names generalizing a with
  | nil => simp
  | cons name rest ih =>
      obtain ⟨hshared, hused⟩ := ih (a.share name).2
      simp only [List.foldl_cons, hshared, hused, share_shared, share_used, List.mem_cons]
      constructor
      · rw [or_comm (a := n = nameOf name), or_assoc]
        simp
      · rw [or_comm (a := n = nameOf name), or_assoc]
        simp

namespace Collection

/-- A name is what one of the written names stands for. -/
def Chooses (c : Collection) (n : String) : Prop :=
  ∃ name ∈ c.writtenNames, n = Allocator.nameOf name

/-- Once all names are shared, the chosen names are in use and no other name is shared. -/
theorem ready_shareAll (c : Collection) : Ready c.Chooses (Entity.shareAll c.entities .empty) := by
  rw [Entity.shareAll_eq]
  constructor
  · intro n hn
    rcases (Allocator.mem_shareEach _ _ n).1.mp hn with hn | hn
    · cases hn
    · exact hn
  · intro n hn
    exact (Allocator.mem_shareEach _ _ n).2.mpr (.inr hn)

end Collection

/-- All names that a condition writes are among those of `W`. -/
def Condition.Within (W : String → Prop) (c : Condition) : Prop :=
  ∀ name ∈ c.writtenNames, W (Allocator.nameOf name)

namespace Ready

variable {W : String → Prop} {a : Allocator} (ns : Namespaces)

/-- The variable of a key is drawn, a chosen name if the condition has one. -/
theorem draws_varFor (h : Ready W a) (e : Entity) (key : String) {condition : Option Condition}
    (hwithin : ∀ c, condition = some c → c.Within W) :
    Draws W a (Draft.varFor e key condition a).1 (Draft.varFor e key condition a).2 := by
  unfold Draft.varFor
  split
  next name => exact h.draws_share (hwithin _ rfl name (by simp [Condition.writtenNames]))
  next => exact h.draws_join _

/-- A position of a triple of a computed key uses up the name it writes. -/
theorem bindTerm (h : Ready W a) {position : String}
    (hwithin : ∀ name, Sparql.sharedName? position = some name → W (Allocator.nameOf name)) :
    Ready W (Draft.bindTerm ns position a).2 ∧ a.used ⊆ (Draft.bindTerm ns position a).2.used := by
  unfold Draft.bindTerm
  split
  next name hname =>
    have hdraws := h.draws_share (hwithin name hname)
    exact ⟨hdraws.ready, hdraws.grows⟩
  next => exact ⟨h, List.Subset.refl _⟩

/-- The triples of a computed key use up the names they write. -/
theorem bindTriples (h : Ready W a) {triples : List BindTriple}
    (hwithin : ∀ t ∈ triples, ∀ position ∈ [t.subject, t.predicate, t.object], ∀ name,
      Sparql.sharedName? position = some name → W (Allocator.nameOf name)) :
    Ready W (Draft.bindTriples ns triples a).2 ∧
      a.used ⊆ (Draft.bindTriples ns triples a).2.used := by
  induction triples generalizing a with
  | nil => exact ⟨h, List.Subset.refl _⟩
  | cons t rest ih =>
      have hposition := hwithin t List.mem_cons_self
      obtain ⟨hpredicate, hgrows₁⟩ := h.bindTerm ns (hposition t.predicate (by simp))
      obtain ⟨hsubject, hgrows₂⟩ := hpredicate.bindTerm ns (hposition t.subject (by simp))
      obtain ⟨hobject, hgrows₃⟩ := hsubject.bindTerm ns (hposition t.object (by simp))
      obtain ⟨hrest, hgrows₄⟩ := ih hobject fun t' ht' => hwithin t' (List.mem_cons_of_mem _ ht')
      unfold Draft.bindTriples
      dsimp only
      rw [Draft.bindPredicate_alloc]
      exact ⟨hrest, fun n hn => hgrows₄ (hgrows₃ (hgrows₂ (hgrows₁ hn)))⟩

end Ready

/-- The slots before the `n`-th entity, and those of that entity. -/
def Kept {σ : Type} (before : Nat × σ → Var → Prop) (n : Nat) (holds : σ → Var → Prop) :
    Nat × σ → Var → Prop :=
  fun s v => before s v ∨ ∃ slot, s = (n, slot) ∧ holds slot v

namespace Apart

section

variable {σ : Type} {W : String → Prop} {before : Nat × σ → Var → Prop} {n : Nat}
  {holds holds' : σ → Var → Prop} {a a' : Allocator}

/-- The entity gets a variable for one more slot. -/
theorem drawSlot (h : Apart W (Kept before n holds) a) {x : Var} (hx : Draws W a x a')
    (slot : σ) :
    Apart W (Kept before n fun s v => holds s v ∨ (s = slot ∧ v = x)) a' := by
  refine h.draw hx (n, slot) ?_
  rintro s v (hbefore | ⟨_, rfl, hv | ⟨rfl, rfl⟩⟩)
  · exact .inl (.inl hbefore)
  · exact .inl (.inr ⟨_, rfl, hv⟩)
  · exact .inr ⟨rfl, rfl⟩

/-- Slots of the entity may be emptied, and names may be used up. -/
theorem monoSlots (h : Apart W (Kept before n holds) a) (hready : Ready W a')
    (hgrows : a.used ⊆ a'.used) (hless : ∀ s v, holds' s v → holds s v) :
    Apart W (Kept before n holds') a' := by
  refine h.mono hready hgrows ?_
  rintro s v (hbefore | ⟨slot, rfl, hv⟩)
  · exact .inl hbefore
  · exact .inr ⟨slot, rfl, hless slot v hv⟩

/-- Slots of the entity may be emptied. -/
theorem keepSlots (h : Apart W (Kept before n holds) a)
    (hless : ∀ s v, holds' s v → holds s v) : Apart W (Kept before n holds') a :=
  h.monoSlots h.ready (List.Subset.refl _) hless

/-- Before an entity is compiled, it has no slots. -/
theorem noSlots (h : Apart W before a) (n : Nat) :
    Apart W (Kept before n fun _ _ => False) a := by
  refine h.mono h.ready (List.Subset.refl _) ?_
  rintro s v (hv | ⟨_, _, hv⟩)
  · exact hv
  · exact hv.elim

end

variable {W : String → Prop} {before : Nat × Slot → Var → Prop} {n : Nat}
  {holds holds' : Slot → Var → Prop} {a a' : Allocator} {ns : Namespaces} {config : Config}
  {options : CompileOptions} {e : Entity} {d d' : Draft}

/-- The filter of a key bears no variable, or a new one. -/
theorem conditionFilter (h : Apart W (Kept before n holds) a) (ns : Namespaces) (e : Entity)
    (subject : Term) (m : Mapping) (key : String) (x : Var) (c : Condition) (count : Nat) :
    Apart W
      (Kept before n fun s v => holds s v ∨ Fragment.Borne subject count
        (Draft.conditionFilter ns e subject m key x c a).1.toList s v)
      (Draft.conditionFilter ns e subject m key x c a).2 := by
  rcases Draft.conditionFilter_cases ns e subject m key x c a with ⟨halloc, hlead⟩ | ⟨r, heq⟩
  · rw [halloc]
    refine h.keepSlots ?_
    rintro s v (hv | ⟨i, g, hg, hbears⟩)
    · exact hv
    · have hcompares := hlead g (Option.mem_toList.mp (List.mem_of_getElem? hg))
      rw [hbears.lead] at hcompares
      cases hcompares
  · rw [heq]
    refine (h.drawSlot (h.ready.draws_fresh _) (.witness count)).keepSlots ?_
    rintro s v (hv | hborne)
    · exact .inl hv
    · exact .inr hborne.of_test

/-- The type of an entity gets its variables. -/
theorem types (h : Apart W (Kept before n d.fragment.Carries) d.alloc)
    (hstep : Draft.Types ns e d d') :
    Apart W (Kept before n d'.fragment.Carries) d'.alloc := by
  cases hstep with
  | untyped => exact h
  | exact =>
      refine h.keepSlots fun s v hv => ?_
      exact hv.of_eq rfl rfl rfl rfl rfl rfl
  | @resolved type a _ htype =>
      -- The names come in the order type, subtype, supertype; the last only under a class.
      have htyped := h.drawSlot (h.ready.draws_join ("type" ++ toString e.index)) .type
      have hsubtyped :=
        htyped.drawSlot (htyped.ready.draws_join ("subtype" ++ toString e.index)) .subtype
      cases hclass : e.class? ns with
      | none =>
          rw [hclass] at htype
          obtain ⟨rfl, rfl⟩ := Prod.mk.inj htype
          refine hsubtyped.keepSlots fun s v hv => ?_
          rcases (d.fragment.grows_type _).carries hv with hv | hv | ⟨i, g, hg, hbears⟩
          · exact .inl (.inl hv)
          · exact .inl (.inr hv)
          · obtain rfl := List.mem_singleton.mp (List.mem_of_getElem? hg)
            exact .inr hbears.of_noNarrower
      | some class_ =>
          rw [hclass] at htype
          obtain ⟨rfl, rfl⟩ := Prod.mk.inj htype
          have hsupertyped := hsubtyped.drawSlot
            (hsubtyped.ready.draws_join ("supertype" ++ toString e.index)) .supertype
          refine hsupertyped.keepSlots fun s v hv => ?_
          rcases (d.fragment.grows_type _).carries hv with hv | hv | ⟨i, g, hg, hbears⟩
          · exact .inl (.inl (.inl hv))
          · exact .inl (.inl (.inr hv))
          · rcases List.mem_cons.mp (List.mem_of_getElem? hg) with rfl | hg
            · exact .inl (.inr hbears.of_noNarrower)
            · obtain rfl := List.mem_singleton.mp hg
              exact .inr hbears.of_under

/-- A selected key gets a variable if it has one. -/
theorem selects (h : Apart W (Kept before n d.fragment.Carries) d.alloc) {key : String}
    (hwithin : ∀ entry ∈ e.conditions, entry.2.Within W)
    (hstep : Draft.Selects ns options e key d d') :
    Apart W (Kept before n d'.fragment.Carries) d'.alloc := by
  have hkeyWithin : ∀ c, e.condition? key = some c → c.Within W := fun c hc =>
    hwithin _ (Entity.mem_of_condition? hc)
  cases hstep with
  | pinned | type | computed | unknown | unmapped => exact h
  | deferred =>
      refine h.keepSlots fun s v hv => ?_
      exact hv.of_eq rfl rfl rfl rfl rfl rfl
  | @identity x hkey hsubject =>
      refine h.keepSlots fun s v hv => ?_
      rcases (d.fragment.grows_selected "@id" x).carries_of_nil hv with hv | ⟨rfl, rfl⟩
      · exact hv
      · exact .subject hsubject
  | borrowed hkey hunknown hshared =>
      have hchosen : W (Allocator.nameOf key) :=
        h.ready.shared _ (by simpa [Allocator.isShared] using hshared)
      refine (h.drawSlot (h.ready.draws_share hchosen) (.ofKey key)).keepSlots fun s v hv => ?_
      exact (d.fragment.grows_selected key _).carries_of_nil hv
  | @property _ m hkey hcomputed hproperty hnow hmapping =>
      have hdrawn := h.drawSlot (h.ready.draws_varFor e key hkeyWithin) (.ofKey key)
      have hfiltered : Apart W
          (Kept before n fun s v =>
            (d.fragment.Carries s v ∨
              (s = .ofKey key ∧ v = (Draft.varFor e key (e.condition? key) d.alloc).1)) ∨
            Fragment.Borne d.fragment.subject d.fragment.filters.length
              (Draft.propertyFilter ns e key m d).1.toList s v)
          (Draft.addProperty ns e key m d).alloc := by
        rw [Draft.addProperty_alloc]
        unfold Draft.propertyFilter
        cases hc : e.condition? key with
        | none =>
            rw [hc] at hdrawn
            exact hdrawn.keepSlots fun s v hv => hv.resolve_right Fragment.not_borne_nil
        | some c =>
            rw [hc] at hdrawn
            exact hdrawn.conditionFilter ns e d.fragment.subject m key _ c _
      exact hfiltered.keepSlots fun s v hv => or_assoc.mpr (Draft.addProperty_grows.carries hv)

/-- A condition gets the variables it needs. -/
theorem restricts (h : Apart W (Kept before n d.fragment.Carries) d.alloc)
    {entry : String × Condition} (hwithin : entry.2.Within W)
    (hstep : Draft.Restricts ns config e entry.1 d entry.2 d') :
    Apart W (Kept before n d'.fragment.Carries) d'.alloc := by
  obtain ⟨key, c⟩ := entry
  cases hstep with
  | keyword | selected | unmapped => exact h
  | @computed relation triples hkey =>
      have hdrawn := h.drawSlot (h.ready.draws_join (key ++ toString e.index)) (.computed key)
      have hwritten : ∀ t ∈ triples, ∀ position ∈ [t.subject, t.predicate, t.object], ∀ name,
          Sparql.sharedName? position = some name → W (Allocator.nameOf name) := by
        intro t ht position hposition name hname
        refine hwithin name (List.mem_filterMap.mpr ⟨position, ?_, hname⟩)
        exact List.mem_flatMap.mpr ⟨t, ht, hposition⟩
      obtain ⟨hready, hgrows⟩ := hdrawn.ready.bindTriples ns hwritten
      -- The triples use up written names, but no slot of the entity is theirs.
      refine hdrawn.monoSlots hready hgrows fun s v hv => ?_
      exact Draft.addComputed_grows.carries_of_nil hv
  | @existence m relation values hkey hmapping hrelation =>
      refine (h.drawSlot (h.ready.draws_fresh _) (.witness d.fragment.filters.length)).keepSlots
        fun s v hv => ?_
      rcases Draft.addExistence_grows.carries hv with hv | hv | hborne
      · exact .inl hv
      · exact hv.elim
      · exact .inr hborne.of_test
  | @hidden m _ hkey hmapping hnarrows =>
      have hown : ∀ c', some c = some c' → c'.Within W := by
        rintro _ ⟨⟩
        exact hwithin
      have hdrawn := h.drawSlot (h.ready.draws_varFor e key hown) (.hidden key)
      have hfiltered := hdrawn.conditionFilter ns e d.fragment.subject m key
        (Draft.varFor e key (some c) d.alloc).1 c d.fragment.filters.length
      exact hfiltered.keepSlots fun s v hv => or_assoc.mpr (Draft.addHidden_grows.carries hv)

/-- The subject of an entity gets its variable. -/
theorem opening (h : Apart W before a) (hwithin : ∀ entry ∈ e.conditions, entry.2.Within W)
    {subject : Term} (hsubject : e.subjectTerm ns a = .ok (subject, a')) :
    Apart W (Kept before n (Draft.opening ns e subject a').fragment.Carries) a' := by
  have hempty : Apart W (Kept before n fun _ _ => False) a := h.noSlots n
  rcases Entity.subjectTerm_cases hsubject with
    ⟨iri, _, rfl, rfl⟩ | ⟨_, name, hname, rfl, rfl⟩ | ⟨_, _, rfl, rfl⟩
  · refine hempty.keepSlots fun s v hv => ?_
    cases (Draft.carries_opening hv).2
  · have hchosen : W (Allocator.nameOf name) :=
      hwithin _ (Entity.mem_of_condition? hname) name (by simp [Condition.writtenNames])
    refine (hempty.drawSlot (h.ready.draws_share hchosen) .subject).keepSlots fun s v hv => ?_
    obtain ⟨hslot, hvar⟩ := Draft.carries_opening hv
    exact .inr ⟨hslot, (Term.var.inj hvar).symm⟩
  · refine (hempty.drawSlot (h.ready.draws_join _) .subject).keepSlots fun s v hv => ?_
    obtain ⟨hslot, hvar⟩ := Draft.carries_opening hv
    exact .inr ⟨hslot, (Term.var.inj hvar).symm⟩

/-- **One entity.**  The slots of its fragment are apart from each other and from
those before. -/
theorem compile (h : Apart W before a) (hwithin : ∀ entry ∈ e.conditions, entry.2.Within W)
    {f : Fragment} (hcompile : e.compile ns config options a = .ok (f, a')) (n : Nat) :
    Apart W (Kept before n f.Carries) a' := by
  obtain ⟨d, hd, rfl, rfl⟩ := Entity.compile_draft
    (fun d => Apart W (Kept before n d.fragment.Carries) d.alloc)
    (fun subject b hs => by rw [Draft.opening_alloc]; exact h.opening hwithin hs)
    (fun _ _ hd hstep => hd.types hstep)
    (fun _ _ _ _ hd hstep => hd.selects hwithin hstep)
    (fun _ hentry _ _ hd hstep => hd.restricts (hwithin _ hentry) hstep)
    hcompile
  exact hd.keepSlots fun s v hv => hv.of_eq rfl rfl rfl rfl rfl rfl

/-- What holds of the slots of one fragment holds of those of all fragments. -/
theorem compileEach_of {σ : Type} {has : Fragment → σ → Var → Prop}
    (hcompile : ∀ (before : Nat × σ → Var → Prop) (e : Entity) a f a', Apart W before a →
      (∀ entry ∈ e.conditions, entry.2.Within W) → e.compile ns config options a = .ok (f, a') →
        ∀ n, Apart W (Kept before n (has f)) a')
    {entities : List Entity} {parts : List Part} {before : Nat × σ → Var → Prop}
    (h : Apart W before a) (hwithin : ∀ e ∈ entities, ∀ entry ∈ e.conditions, entry.2.Within W)
    (hparts : Entity.compileEach ns config options entities a = .ok parts) (n : Nat) :
    ∃ a', Apart W
      (fun s v => before s v ∨
        ∃ i p slot, parts[i]? = some p ∧ s = (n + i, slot) ∧ has p.fragment slot v) a' := by
  induction entities generalizing before a parts n with
  | nil =>
      obtain rfl : parts = [] := by
        cases hparts
        rfl
      refine ⟨a, h.mono h.ready (List.Subset.refl _) ?_⟩
      rintro s v (hv | ⟨i, p, slot, hp, _⟩)
      · exact hv
      · cases hp
  | cons e rest ih =>
      obtain ⟨f, b, others, hc, hr, rfl⟩ := Entity.compileEach_cons hparts
      have hfirst := hcompile before e a f b h (hwithin e List.mem_cons_self) hc n
      obtain ⟨a', hrest⟩ :=
        ih hfirst (fun d hd => hwithin d (List.mem_cons_of_mem _ hd)) hr (n + 1)
      refine ⟨a', hrest.mono hrest.ready (List.Subset.refl _) ?_⟩
      rintro s v (hv | ⟨i, p, slot, hp, rfl, hv⟩)
      · exact .inl (.inl hv)
      · cases i with
        | zero =>
            obtain rfl := Option.some.inj hp
            exact .inl (.inr ⟨slot, rfl, hv⟩)
        | succ i =>
            have hplace : n + (i + 1) = n + 1 + i := by omega
            exact .inr ⟨i, p, slot, hp, by rw [hplace], hv⟩

/-- **All entities.**  The slots of the fragments of a collection are apart. -/
theorem compileEach {entities : List Entity} {parts : List Part} (h : Apart W before a)
    (hwithin : ∀ e ∈ entities, ∀ entry ∈ e.conditions, entry.2.Within W)
    (hparts : Entity.compileEach ns config options entities a = .ok parts) (n : Nat) :
    ∃ a', Apart W
      (fun s v => before s v ∨
        ∃ i p slot, parts[i]? = some p ∧ s = (n + i, slot) ∧ p.fragment.Carries slot v) a' :=
  compileEach_of (fun _ _ _ _ _ h hwithin hcompile => h.compile hwithin hcompile) h hwithin hparts n

end Apart

namespace Collection

variable {ns : Namespaces} {config : Config} {options : CompileOptions} {c : Collection}

/-- A SELECT has the fragments of its parts. -/
theorem compileSelectWith_cases {plan : SelectPlan}
    (h : c.compileSelectWith ns config options = .ok plan) :
    ∃ parts, c.compileParts ns config options = .ok parts ∧
      let fragments := parts.map (·.fragment)
      plan =
        { query :=
            .of (c.distinct || c.entities.any (·.distinct)) (projection fragments)
              (mergePatterns fragments) ⟨c.selectOrder parts, c.rootLimit?, c.rootOffset?⟩
          parts := parts } := by
  unfold compileSelectWith at h
  cases hparts : c.compileParts ns config options with
  | error x => simp [hparts, bind, Except.bind] at h
  | ok parts =>
      simp only [hparts, bind, Except.bind, Except.ok.injEq] at h
      exact ⟨parts, rfl, h.symm⟩

/-- A CONSTRUCT has the templates of its parts, and a sub-select for each part with an order
or a cut. -/
theorem compileConstruct_cases {plan : ConstructPlan}
    (h : c.compileConstruct ns config = .ok plan) :
    ∃ parts, c.compileParts ns config {} = .ok parts ∧
      let flat := parts.filter fun p => (c.subselect? p).isNone
      plan =
        { query :=
            { template := parts.flatMap (·.fragment.template)
              body := parts.filterMap c.subselect? ++ mergePatterns (flat.map (·.fragment))
              modifiers := .none }
          parts := parts } := by
  unfold compileConstruct at h
  cases hparts : c.compileParts ns config {} with
  | error x => simp [hparts, bind, Except.bind] at h
  | ok parts =>
      simp only [hparts, bind, Except.bind, Except.ok.injEq] at h
      exact ⟨parts, rfl, h.symm⟩

/-- The parts of a query are those that it comes from. -/
theorem compileParts_of_select {plan : SelectPlan}
    (h : c.compileSelectWith ns config options = .ok plan) :
    c.compileParts ns config options = .ok plan.parts := by
  obtain ⟨parts, hparts, rfl⟩ := compileSelectWith_cases h
  exact hparts

/-- The parts of a CONSTRUCT query are compiled like those of a SELECT query. -/
theorem compileParts_of_construct {plan : ConstructPlan}
    (h : c.compileConstruct ns config = .ok plan) :
    c.compileParts ns config {} = .ok plan.parts := by
  obtain ⟨parts, hparts, rfl⟩ := compileConstruct_cases h
  exact hparts

/-- The main query of either form has the same fragments. -/
theorem compileParts_of_main {parts : List Part}
    (h : (∃ plan, c.compileSelect ns config = .ok plan ∧ plan.parts = parts) ∨
      ∃ plan, c.compileConstruct ns config = .ok plan ∧ plan.parts = parts) :
    c.compileParts ns config {} = .ok parts := by
  rcases h with ⟨plan, hplan, rfl⟩ | ⟨plan, hplan, rfl⟩
  · exact compileParts_of_select hplan
  · exact compileParts_of_construct hplan

/-- **Variables collide on request only.**  Two slots of the fragments of a query, of one
entity or of two, have the same variable only if its name is what a written name stands
for. -/
theorem chooses_of_collision {parts : List Part}
    (hparts : (∃ plan, c.compileSelect ns config = .ok plan ∧ plan.parts = parts) ∨
      ∃ plan, c.compileConstruct ns config = .ok plan ∧ plan.parts = parts)
    {i j : Nat} {p q : Part} (hp : parts[i]? = some p) (hq : parts[j]? = some q) {s t : Slot}
    {v : Var} (hs : p.fragment.Carries s v) (ht : q.fragment.Carries t v)
    (hne : (i, s) ≠ (j, t)) :
    ∃ name ∈ c.writtenNames, v.name = Allocator.nameOf name := by
  have hcompiled := compileParts_of_main hparts
  have hstart : Apart c.Chooses (fun (_ : Nat × Slot) _ => False)
      (Entity.shareAll c.entities .empty) :=
    ⟨c.ready_shareAll, fun _ _ h => h.elim, fun _ _ _ h => h.elim⟩
  have hwithin : ∀ e ∈ c.entities, ∀ entry ∈ e.conditions, entry.2.Within c.Chooses := by
    intro e he entry hentry name hname
    refine ⟨name, List.mem_flatMap.mpr ⟨e, he, ?_⟩, rfl⟩
    exact List.mem_flatMap.mpr ⟨entry, hentry, hname⟩
  obtain ⟨a, hapart⟩ := hstart.compileEach hwithin hcompiled 0
  rcases hapart.apart (i, s) (j, t) v
      (.inr ⟨i, p, s, hp, by rw [Nat.zero_add], hs⟩)
      (.inr ⟨j, q, t, hq, by rw [Nat.zero_add], ht⟩) with heq | hchosen
  · exact (hne heq).elim
  · exact hchosen

/-- A person, two of whose keys ask for the same name, and a friend of theirs. -/
def friends : Collection where
  entities :=
    [{ index := 0
       schema :=
         { targetClass := some "ex:Person"
           context := [("nick-name", .str "ex:nick"), ("nick.name", .str "ex:alias"),
             ("friend", .str "ex:friend")]
           properties :=
             [("nick-name", {}), ("nick.name", {}), ("friend", { format := some "iri" })] }
       conditions := [("friend", .shared "the friend")] },
     { index := 1
       schema := { targetClass := some "ex:Person" }
       conditions := [("@id", .shared "the friend")] }]

/-- The friend has one variable in both entities, and each of the two keys its own. -/
theorem chooses_of_collision_friends :
    ∃ plan p q, friends.compileSelect .exampleOrg {} = .ok plan ∧ plan.parts = [p, q] ∧
      p.fragment.Carries (.selected "friend") ⟨"the_friend"⟩ ∧
      q.fragment.Carries .subject ⟨"the_friend"⟩ ∧
      p.fragment.Carries (.selected "nick-name") ⟨"nick_name0"⟩ ∧
      p.fragment.Carries (.selected "nick.name") ⟨"nick_name0_1"⟩ ∧
      ∃ name ∈ friends.writtenNames, "the_friend" = Allocator.nameOf name := by
  obtain ⟨plan, p, q, hplan, hparts, hfriend, hsubject, hname, halias⟩ :
      ∃ plan p q, friends.compileSelect .exampleOrg {} = .ok plan ∧ plan.parts = [p, q] ∧
        ("friend", ⟨"the_friend"⟩) ∈ p.fragment.props.entries ∧
        q.fragment.subject = .var ⟨"the_friend"⟩ ∧
        ("nick-name", ⟨"nick_name0"⟩) ∈ p.fragment.props.entries ∧
        ("nick.name", ⟨"nick_name0_1"⟩) ∈ p.fragment.props.entries :=
    ⟨_, _, _, rfl, rfl, by decide +kernel, rfl, by decide +kernel, by decide +kernel⟩
  refine ⟨plan, p, q, hplan, hparts, .selected hfriend, .subject hsubject, .selected hname,
    .selected halias, ?_⟩
  exact chooses_of_collision (.inl ⟨plan, hplan, hparts⟩) (i := 0) (j := 1) rfl rfl
    (.selected hfriend) (.subject hsubject) (by decide)

end Collection

end ObjectGraph
