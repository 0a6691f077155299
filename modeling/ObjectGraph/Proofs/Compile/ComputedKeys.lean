import Mathlib.Data.List.Flatten
import Mathlib.Data.List.Pairwise
import ObjectGraph.Proofs.Compile.Placement
import ObjectGraph.Proofs.Compile.SharedNames
import ObjectGraph.Proofs.Compile.Subselects
import ObjectGraph.Proofs.Sparql.Assignments

/-!
# Computed keys

A computed key is an assignment at the end of a group: its test, given to its variable.  The
test looks at the names that its condition writes and at nothing else
(`BindRelation.test_reads`).  Its variable is one of its own, since like all variables it is
taken from the names in use: it stands in no triple and is that of no other computed key, unless
its name is one that the collection writes (`Collection.chooses_of_sites`).

So where no such name is written (`Collection.HasOwnComputedNames`), a group of entities gives
each computed key the value that its test has under the whole solution
(`ComputesApart.value`).
-/

namespace ObjectGraph

open Allocator (nameOf varOf)
open Sparql (Var Term Triple Expression Pattern Solution Engine groupScope groupSolutions assign)

/-! ## Tests -/

/-- The names in the triples of the computed keys of an entity. -/
def Entity.computedNames (e : Entity) : List String :=
  (e.conditions.filter (·.2.isComputed)).flatMap (·.2.writtenNames)

/-- What a computed key writes is among the computed names of the entity. -/
theorem Entity.mem_computedNames {e : Entity} {key : String} {relation : BindRelation}
    {triples : List BindTriple} (h : (key, .computed relation triples) ∈ e.conditions)
    {name : String} (hname : name ∈ (Condition.computed relation triples).writtenNames) :
    name ∈ e.computedNames :=
  List.mem_flatMap.mpr ⟨_, List.mem_filter.mpr ⟨h, rfl⟩, hname⟩

/-- The variables of the triples of a computed key are those of the names it writes. -/
theorem BindTriple.exists_name {ns : Namespaces} {relation : BindRelation}
    {triples : List BindTriple} {v : Var}
    (hv : v ∈ (triples.map (BindTriple.pattern ns)).flatMap Triple.vars) :
    ∃ name ∈ (Condition.computed relation triples).writtenNames, v = varOf name := by
  obtain ⟨_, hmem, hv⟩ := List.mem_flatMap.mp hv
  obtain ⟨t, ht, rfl⟩ := List.mem_map.mp hmem
  have hwritten : ∀ s ∈ [t.subject, t.predicate, t.object], ∀ name,
      Sparql.sharedName? s = some name →
        name ∈ (Condition.computed relation triples).writtenNames :=
    fun s hs name hname =>
      List.mem_filterMap.mpr ⟨s, List.mem_flatMap.mpr ⟨t, ht, hs⟩, hname⟩
  have hposition : ∀ s ∈ [t.subject, t.predicate, t.object], position ns s = .var v →
      ∃ name ∈ (Condition.computed relation triples).writtenNames, v = varOf name := by
    intro s hs hvar
    unfold position at hvar
    split at hvar
    next name hname => exact ⟨name, hwritten s hs name hname, (Term.var.inj hvar).symm⟩
    next => cases hvar
  rcases Triple.mem_vars.mp hv with hsubject | hpredicate | hobject
  · exact hposition t.subject (by simp) hsubject
  · simp only [pattern, BindTriple.relation] at hpredicate
    split at hpredicate
    next name hname =>
      exact ⟨name, hwritten _ (by simp) name hname, (Sparql.Predicate.var.inj hpredicate).symm⟩
    next => cases hpredicate
  · exact hposition t.object (by simp) hobject

namespace BindRelation

variable {E : Engine} (relation : BindRelation) (ns : Namespaces) (triples : List BindTriple)

/-- **A test looks at the names of its triples only.** -/
theorem test_reads : (relation.test ns triples).Reads E fun v =>
    ∃ name ∈ (Condition.computed relation triples).writtenNames, v = varOf name := by
  intro G μ ν hagree
  have hblock : ∀ v ∈ (triples.map (BindTriple.pattern ns)).flatMap Triple.vars, μ v = ν v :=
    fun v hv => hagree v (BindTriple.exists_name hv)
  cases relation with
  | exist => exact Expression.exist_value_congr hblock
  | notExist => exact Expression.notExist_value_congr hblock

/-- A test is never an error. -/
theorem test_isSome (G : Rdf.Graph) (μ : Solution) :
    ((relation.test ns triples).value? E G μ).isSome := by
  cases relation <;> simp [test, Expression.value?]

end BindRelation

/-! ## Variables of their own -/

/-- A triple of the fragment has the variable. -/
def Fragment.Mentions (f : Fragment) (v : Var) : Prop :=
  ∃ t ∈ f.mandatory ++ f.optional, v ∈ t.vars

/-- Where the patterns of an entity have a variable: in its triples, or for one of its computed
keys. -/
inductive Site where
  | triples
  | computed (place : Nat)
  deriving DecidableEq

/-- The variables that a fragment has at a site; the subject is at that of the triples. -/
inductive Fragment.Has (f : Fragment) : Site → Var → Prop
  | subject {v : Var} (h : f.subject = .var v) : Has f .triples v
  | triple {t : Triple} {v : Var} (ht : t ∈ f.mandatory ++ f.optional) (hv : v ∈ t.vars) :
      Has f .triples v
  | computed {place : Nat} {test : Expression} {v : Var} (h : f.binds[place]? = some (test, v)) :
      Has f (.computed place) v

namespace Fragment

variable {f f' : Fragment} {s : Site} {v : Var}

/-- A fragment with the same patterns has the same variables. -/
theorem Has.of_eq (h : f'.Has s v) (hsubject : f'.subject = f.subject)
    (hmandatory : f'.mandatory = f.mandatory) (hoptional : f'.optional = f.optional)
    (hbinds : f'.binds = f.binds) : f.Has s v := by
  cases h with
  | subject hv => exact .subject (hsubject ▸ hv)
  | triple ht hv => exact .triple (hmandatory ▸ hoptional ▸ ht) hv
  | computed hv => exact .computed (hbinds ▸ hv)

/-- One more triple of the subject brings its other variables. -/
theorem Has.of_triple (h : f'.Has s v) {t : Triple} {new : Var → Prop}
    (ht : ∀ v ∈ t.vars, f.subject = .var v ∨ new v) (hsubject : f'.subject = f.subject)
    (htriples : ∀ t' ∈ f'.mandatory ++ f'.optional, t' ∈ f.mandatory ++ f.optional ∨ t' = t)
    (hbinds : f'.binds = f.binds) : f.Has s v ∨ (s = .triples ∧ new v) := by
  cases h with
  | subject hv => exact .inl (.subject (hsubject ▸ hv))
  | triple ht' hv =>
      rcases htriples _ ht' with hold | rfl
      · exact .inl (.triple hold hv)
      · exact (ht _ hv).imp .subject fun hnew => ⟨rfl, hnew⟩
  | computed hv => exact .inl (.computed (hbinds ▸ hv))

/-- One more computed key brings its variable. -/
theorem Has.of_computed (h : f'.Has s v) {test : Expression} {x : Var}
    (hsubject : f'.subject = f.subject) (hmandatory : f'.mandatory = f.mandatory)
    (hoptional : f'.optional = f.optional) (hbinds : f'.binds = f.binds ++ [(test, x)]) :
    f.Has s v ∨ (s = .computed f.binds.length ∧ v = x) := by
  cases h with
  | subject hv => exact .inl (.subject (hsubject ▸ hv))
  | triple ht hv => exact .inl (.triple (hmandatory ▸ hoptional ▸ ht) hv)
  | @computed place _ _ hv =>
      rw [hbinds, List.getElem?_append] at hv
      split at hv
      next => exact .inl (.computed hv)
      next hplace =>
        rw [List.getElem?_singleton] at hv
        split at hv
        next hlast =>
          cases hv
          have heq : place = f.binds.length := by omega
          exact .inr ⟨heq ▸ rfl, rfl⟩
        next => cases hv

end Fragment

/-- What is taken stays taken when more names are used up. -/
theorem Draws.then {W : String → Prop} {a b c : Allocator} {x : Var} (h : Draws W a x b)
    (hready : Ready W c) (hgrows : b.used ⊆ c.used) : Draws W a x c :=
  ⟨hready, List.Subset.trans h.grows hgrows, hgrows h.taken, h.fresh⟩

/-- Names that are used up stay so, and the shared ones are those of `W`. -/
def Allocator.Follows (W : String → Prop) (a b : Allocator) : Prop :=
  Ready W b ∧ a.used ⊆ b.used

/-- An allocator that has drawn a variable follows itself. -/
theorem Draws.follows {W : String → Prop} {a b : Allocator} {x : Var} (h : Draws W a x b) :
    b.Follows W b :=
  ⟨h.ready, List.Subset.refl _⟩

/-- Fresh names take nothing back. -/
theorem Enduring.follows (W : String → Prop) (a : Allocator) : Enduring (a.Follows W) :=
  fun _ n h => ⟨(h.1.draws_fresh n).ready, List.Subset.trans h.2 (h.1.draws_fresh n).grows⟩

/-- The pattern of a property has the variables of its two ends alone. -/
theorem Mapping.mem_vars_of_triple (m : Mapping) (subject : Term) (x : Var) :
    ∀ v ∈ (m.triple subject (.var x)).vars, subject = .var v ∨ v = x :=
  fun _ hv => (mem_vars_triple.mp hv).imp_right fun heq => (Term.var.inj heq).symm

/-- The variable of a type is taken, whatever other names its filters take. -/
theorem MostSpecificType.draws_typeVar {W : String → Prop} {subject : Term}
    {class_ : Option String} {index : Nat} {a a' : Allocator} {type : MostSpecificType}
    (ha : Ready W a) (h : compile subject class_ index a = (type, a')) :
    Draws W a type.typeVar a' := by
  have hdraws := ha.draws_join ("type" ++ toString index)
  have hsubtype := (Enduring.follows W _).join ("subtype" ++ toString index) hdraws.follows
  cases class_ with
  | none =>
      obtain ⟨rfl, rfl⟩ := Prod.mk.inj h
      exact hdraws.then hsubtype.1 hsubtype.2
  | some class_ =>
      obtain ⟨rfl, rfl⟩ := Prod.mk.inj h
      have hsupertype := (Enduring.follows W _).join ("supertype" ++ toString index) hsubtype
      exact hdraws.then hsupertype.1 hsupertype.2

namespace Apart

variable {W : String → Prop} {before : Nat × Site → Var → Prop} {n : Nat} {a a' : Allocator}
  {ns : Namespaces} {config : Config} {options : CompileOptions} {e : Entity} {d d' : Draft}

/-- A subject belongs to the triples. -/
theorem sites_opening (h : Apart W before a)
    (hwithin : ∀ entry ∈ e.conditions, entry.2.Within W) {subject : Term}
    (hsubject : e.subjectTerm ns a = .ok (subject, a')) :
    Apart W (Kept before n (Draft.opening ns e subject a').fragment.Has) a' := by
  have hhas : ∀ s v, (Draft.opening ns e subject a').fragment.Has s v →
      s = .triples ∧ subject = .var v := by
    intro s v hv
    have hsame : (Draft.start ns e subject a').fragment.Has s v := by
      unfold Draft.opening Draft.addIdentity at hv
      split at hv <;> exact hv.of_eq rfl rfl rfl rfl
    cases hsame with
    | subject hv => exact ⟨rfl, hv⟩
    | triple ht | computed ht => simp [Draft.start] at ht
  have hdrawn : ∀ {x : Var}, subject = .var x → Draws W a x a' →
      Apart W (Kept before n (Draft.opening ns e subject a').fragment.Has) a' := by
    intro x hx hdraws
    refine ((h.noSlots n).drawSlot hdraws .triples).keepSlots fun s v hv => ?_
    obtain ⟨hsite, hvar⟩ := hhas s v hv
    exact .inr ⟨hsite, Term.var.inj (hvar.symm.trans hx)⟩
  rcases Entity.subjectTerm_cases hsubject with
    ⟨iri, _, rfl, rfl⟩ | ⟨_, name, hname, rfl, rfl⟩ | ⟨_, _, rfl, rfl⟩
  · refine (h.noSlots n).keepSlots fun s v hv => ?_
    cases (hhas s v hv).2
  · exact hdrawn rfl (h.ready.draws_share
      (hwithin _ (Entity.mem_of_condition? hname) name (by simp [Condition.writtenNames])))
  · exact hdrawn rfl (h.ready.draws_join _)

/-- A type has its variable in a triple. -/
theorem sites_types (h : Apart W (Kept before n d.fragment.Has) d.alloc)
    (hstep : Draft.Types ns e d d') : Apart W (Kept before n d'.fragment.Has) d'.alloc := by
  cases hstep with
  | untyped => exact h
  | @exact class_ =>
      have hvars : ∀ x ∈ (exactType d.fragment.subject class_).vars,
          d.fragment.subject = .var x ∨ False :=
        fun x hx => (Sparql.Triple.mem_vars_of_iri.mp hx).imp_right nofun
      refine h.keepSlots fun s v hv => ?_
      refine (hv.of_triple (f := d.fragment) hvars rfl ?_ rfl).resolve_right And.right
      intro t ht
      simp only [List.mem_append, List.mem_singleton] at ht ⊢
      tauto
  | @resolved type a _ htype =>
      have hvars : ∀ x ∈ type.triple.vars, d.fragment.subject = .var x ∨ x = type.typeVar := by
        rw [MostSpecificType.compile_triple htype]
        intro x hx
        exact (Sparql.Triple.mem_vars_of_iri.mp hx).imp_right fun heq => (Term.var.inj heq).symm
      refine (h.drawSlot (MostSpecificType.draws_typeVar h.ready htype) .triples).keepSlots
        fun s v hv => ?_
      refine hv.of_triple (f := d.fragment) hvars rfl ?_ rfl
      intro t ht
      simp only [List.mem_append, List.mem_singleton] at ht ⊢
      tauto

/-- A selected key has its variable in a triple. -/
theorem sites_selects (h : Apart W (Kept before n d.fragment.Has) d.alloc)
    (hwithin : ∀ entry ∈ e.conditions, entry.2.Within W) {key : String}
    (hstep : Draft.Selects ns options e key d d') :
    Apart W (Kept before n d'.fragment.Has) d'.alloc := by
  cases hstep with
  | pinned | type | computed | unknown | unmapped => exact h
  | identity | deferred => exact h.keepSlots fun s v hv => hv.of_eq rfl rfl rfl rfl
  | borrowed _ _ hshared =>
      have hchosen : W (nameOf key) :=
        h.ready.shared _ (by simpa [Allocator.isShared] using hshared)
      have hdraws := h.ready.draws_share hchosen
      exact h.monoSlots hdraws.ready hdraws.grows fun s v hv => hv.of_eq rfl rfl rfl rfl
  | @property _ m =>
      have hown : ∀ c, e.condition? key = some c → c.Within W := fun c hc =>
        hwithin (key, c) (Entity.mem_of_condition? hc)
      have hdraws := h.ready.draws_varFor e key hown
      have hfollows : (Draft.varFor e key (e.condition? key) d.alloc).2.Follows W
          (Draft.addProperty ns e key m d).alloc := by
        have hstart := hdraws.follows
        rw [Draft.addProperty_alloc]
        unfold Draft.propertyFilter
        cases hc : e.condition? key with
        | none =>
            rw [hc] at hstart
            exact hstart
        | some c =>
            rw [hc] at hstart
            exact (Enduring.follows W _).conditionFilter c hstart
      refine (h.drawSlot (hdraws.then hfollows.1 hfollows.2) .triples).keepSlots fun s v hv => ?_
      refine hv.of_triple (f := d.fragment) (m.mem_vars_of_triple _ _) rfl ?_ rfl
      intro t ht
      rw [Draft.addProperty_mandatory, Draft.addProperty_optional] at ht
      split at ht <;> simp only [List.mem_append, List.mem_singleton] at ht ⊢ <;> tauto

/-- A condition brings the variable of a triple or of a computed key, or none. -/
theorem sites_restricts (h : Apart W (Kept before n d.fragment.Has) d.alloc)
    {entry : String × Condition} (hwithin : entry.2.Within W)
    (hstep : Draft.Restricts ns config e entry.1 d entry.2 d') :
    Apart W (Kept before n d'.fragment.Has) d'.alloc := by
  obtain ⟨key, c⟩ := entry
  cases hstep with
  | keyword | selected | unmapped => exact h
  | @computed relation triples =>
      have hdrawn := h.drawSlot (h.ready.draws_join (key ++ toString e.index))
        (.computed d.fragment.binds.length)
      obtain ⟨hready, hgrows⟩ := hdrawn.ready.bindTriples ns fun t ht s hs name hname =>
        hwithin name (List.mem_filterMap.mpr ⟨s, List.mem_flatMap.mpr ⟨t, ht, hs⟩, hname⟩)
      refine hdrawn.monoSlots hready hgrows fun s v hv => ?_
      exact hv.of_computed rfl rfl rfl (Draft.addComputed_binds ..)
  | existence =>
      have hdraws := h.ready.draws_fresh (key ++ "Exist" ++ toString e.index)
      exact h.monoSlots hdraws.ready hdraws.grows fun s v hv => hv.of_eq rfl rfl rfl rfl
  | @hidden m =>
      have hown : ∀ c', some c = some c' → c'.Within W := by
        rintro _ ⟨⟩
        exact hwithin
      have hdraws := h.ready.draws_varFor e key hown
      have hfollows : (Draft.varFor e key (some c) d.alloc).2.Follows W
          (Draft.addHidden ns e key m c d).alloc :=
        (Enduring.follows W _).conditionFilter c hdraws.follows
      refine (h.drawSlot (hdraws.then hfollows.1 hfollows.2) .triples).keepSlots fun s v hv => ?_
      refine hv.of_triple (f := d.fragment) (m.mem_vars_of_triple _ _) rfl ?_ rfl
      intro t ht
      simp only [Draft.addHidden, List.mem_append, List.mem_singleton] at ht ⊢
      tauto

/-- **One entity.**  The sites of its fragment are apart from each other and from those before. -/
theorem sites_compile (h : Apart W before a)
    (hwithin : ∀ entry ∈ e.conditions, entry.2.Within W) {f : Fragment}
    (hcompile : e.compile ns config options a = .ok (f, a')) (n : Nat) :
    Apart W (Kept before n f.Has) a' := by
  obtain ⟨d, hd, rfl, rfl⟩ := Entity.compile_draft
    (fun d => Apart W (Kept before n d.fragment.Has) d.alloc)
    (fun subject b hs => by rw [Draft.opening_alloc]; exact h.sites_opening hwithin hs)
    (fun _ _ hd hstep => hd.sites_types hstep)
    (fun _ _ _ _ hd hstep => hd.sites_selects hwithin hstep)
    (fun _ hentry _ _ hd hstep => hd.sites_restricts (hwithin _ hentry) hstep)
    hcompile
  exact hd.keepSlots fun s v hv => hv.of_eq rfl rfl rfl rfl

end Apart

/-- A computed key of an entity, with its test and its variable; that has a written name only if
it is the one that the key asks for. -/
def Entity.Assigns (ns : Namespaces) (W : String → Prop) (e : Entity) (b : Expression × Var) :
    Prop :=
  ∃ key relation triples, (key, .computed relation triples) ∈ e.conditions ∧
    b.1 = relation.test ns triples ∧ (W b.2.name → W (nameOf (key ++ toString e.index)))

/-- All that is computed in a fragment are computed keys of the entity. -/
theorem Entity.compile_assigns {W : String → Prop} {ns : Namespaces} {config : Config}
    {options : CompileOptions} {e : Entity} {a a' : Allocator} {f : Fragment}
    (ha : Reserves W a) (hwithin : ∀ entry ∈ e.conditions, entry.2.Within W)
    (h : e.compile ns config options a = .ok (f, a')) : ∀ b ∈ f.binds, e.Assigns ns W b := by
  obtain ⟨d, ⟨-, hd⟩, rfl, -⟩ := compile_draft
    (fun d => Draft.Steady W e d ∧ ∀ b ∈ d.fragment.binds, e.Assigns ns W b)
    (fun subject b hs => by
      refine ⟨.opening ha.ready ha.shared hwithin hs, ?_⟩
      unfold Draft.opening Draft.addIdentity
      split <;> exact nofun)
    (fun d d' hd hstep => by
      refine ⟨(hd.1.types hstep).1, ?_⟩
      cases hstep <;> exact hd.2)
    (fun key _ d d' hd hstep => by
      refine ⟨(hd.1.selects hwithin hstep).1, ?_⟩
      cases hstep <;> exact hd.2)
    (fun entry hentry d d' hd hstep => by
      obtain ⟨key, c⟩ := entry
      refine ⟨(hd.1.restricts (hwithin _ hentry) hstep).1, ?_⟩
      cases hstep with
      | keyword | selected | unmapped | existence | hidden => exact hd.2
      | computed =>
          rw [Draft.addComputed_binds]
          intro b hb
          rcases List.mem_append.mp hb with hold | hnew
          · exact hd.2 b hold
          · obtain rfl := List.mem_singleton.mp hnew
            refine ⟨key, _, _, hentry, rfl, fun hW => ?_⟩
            have hname := Draft.name_of_join hd.1.apart.ready hd.1.shared _ (.inl hW)
            exact hname ▸ hW)
    h
  exact hd

/-! ## Computed keys in a group -/

/-- No name that the collection writes is one that a computed key asks for. -/
def Collection.HasOwnComputedNames (c : Collection) : Prop :=
  ∀ e ∈ c.entities, ∀ key relation triples, (key, .computed relation triples) ∈ e.conditions →
    ¬ c.Chooses (nameOf (key ++ toString e.index))

/-- The parts of a collection are parts of its entities. -/
theorem Collection.entity_mem_of_parts {ns : Namespaces} {config : Config}
    {options : CompileOptions} {c : Collection} {parts : List Part}
    (h : c.compileParts ns config options = .ok parts) {p : Part} (hp : p ∈ parts) :
    p.entity ∈ c.entities := by
  rw [← Entity.compileEach_entities h]
  exact List.mem_map_of_mem hp

/-- The names of tests are written names. -/
theorem Collection.chooses_of_computed {c : Collection} {e : Entity} (he : e ∈ c.entities)
    {name : String} (hname : name ∈ e.computedNames) : c.Chooses (nameOf name) := by
  obtain ⟨entry, hentry, hname⟩ := List.mem_flatMap.mp hname
  exact within_chooses he entry (List.mem_of_mem_filter hentry) name hname

/-- Computed keys have variables of their own, which are no written names, stand in no triple and
are those of no others; their tests are those of the entity. -/
structure ComputesApart (ns : Namespaces) (W : String → Prop) (parts : List Part) : Prop where
  unwritten : ∀ p ∈ parts, ∀ b ∈ p.fragment.binds, ¬ W b.2.name
  tests : ∀ p ∈ parts, ∀ b ∈ p.fragment.binds, p.entity.Assigns ns W b
  names : ∀ p ∈ parts, ∀ name ∈ p.entity.computedNames, W (nameOf name)
  unmentioned : ∀ p ∈ parts, ∀ b ∈ p.fragment.binds, ∀ q ∈ parts, ¬ q.fragment.Mentions b.2
  nodup : (parts.flatMap fun p => p.fragment.binds.map Prod.snd).Nodup

/-- Two places of a query have one variable only if that has a written name. -/
theorem Collection.chooses_of_sites {ns : Namespaces} {config : Config}
    {options : CompileOptions} {c : Collection} {parts : List Part}
    (h : c.compileParts ns config options = .ok parts) {i j : Nat} {p q : Part}
    (hp : parts[i]? = some p) (hq : parts[j]? = some q) {s t : Site} {v : Var}
    (hs : p.fragment.Has s v) (ht : q.fragment.Has t v) (hne : (i, s) ≠ (j, t)) :
    c.Chooses v.name := by
  obtain ⟨a, hapart⟩ := Apart.compileEach_of
    (fun _ _ _ _ _ h hwithin hcompile => h.sites_compile hwithin hcompile)
    (.nothing c.ready_shareAll) (fun e he => c.within_chooses he) h 0
  refine (hapart.apart (i, s) (j, t) v ?_ ?_).resolve_left hne
  · exact .inr ⟨i, p, s, hp, by rw [Nat.zero_add], hs⟩
  · exact .inr ⟨j, q, t, hq, by rw [Nat.zero_add], ht⟩

/-- **Computed keys have variables of their own** in every query of a collection that does not
write one of their names. -/
theorem Collection.compileParts_computesApart {ns : Namespaces} {config : Config}
    {options : CompileOptions} {c : Collection} {parts : List Part}
    (h : c.compileParts ns config options = .ok parts) (hown : c.HasOwnComputedNames) :
    ComputesApart ns c.Chooses parts := by
  have hentity : ∀ p ∈ parts, p.entity ∈ c.entities := fun p hp => entity_mem_of_parts h hp
  have htests : ∀ p ∈ parts, ∀ b ∈ p.fragment.binds, p.entity.Assigns ns c.Chooses b := by
    intro p hp
    obtain ⟨a, a', ha, hshared, hwithin, hcompile⟩ := compileParts_ready h hp
    exact Entity.compile_assigns ⟨ha, hshared⟩ hwithin hcompile
  have hunwritten : ∀ p ∈ parts, ∀ b ∈ p.fragment.binds, ¬ c.Chooses b.2.name := by
    intro p hp b hb hchosen
    obtain ⟨key, relation, triples, hentry, -, hname⟩ := htests p hp b hb
    exact hown p.entity (hentity p hp) key relation triples hentry (hname hchosen)
  -- two computed keys with one variable are one
  have hdistinct : ∀ {i j k l : Nat} {p q : Part} {b b' : Expression × Var},
      parts[i]? = some p → parts[j]? = some q → p.fragment.binds[k]? = some b →
        q.fragment.binds[l]? = some b' → (i, k) ≠ (j, l) → b.2 ≠ b'.2 := by
    intro i j k l p q b b' hp hq hb hb' hne heq
    have hother : q.fragment.Has (.computed l) b.2 := by
      rw [heq]
      exact .computed hb'
    refine hunwritten p (List.mem_of_getElem? hp) b (List.mem_of_getElem? hb) ?_
    refine chooses_of_sites h hp hq (.computed hb) hother fun hsame => hne ?_
    simpa using hsame
  refine ⟨hunwritten, htests, ?_, ?_, ?_⟩
  · exact fun p hp name hname => chooses_of_computed (hentity p hp) hname
  · rintro p hp b hb q hq ⟨t, ht, hmem⟩
    obtain ⟨i, hi⟩ := List.mem_iff_getElem?.mp hp
    obtain ⟨j, hj⟩ := List.mem_iff_getElem?.mp hq
    obtain ⟨k, hk⟩ := List.mem_iff_getElem?.mp hb
    exact hunwritten p hp b hb (chooses_of_sites h hi hj (.computed hk) (.triple ht hmem) (by simp))
  · refine List.nodup_flatMap.mpr ⟨fun p hp => ?_, List.pairwise_iff_getElem.mpr ?_⟩
    · obtain ⟨i, hi⟩ := List.mem_iff_getElem?.mp hp
      refine List.pairwise_iff_getElem.mpr fun k l hk hl hkl => ?_
      simp only [List.length_map] at hk hl
      simp only [List.getElem_map]
      exact hdistinct hi hi (List.getElem?_eq_getElem hk) (List.getElem?_eq_getElem hl)
        fun hsame => (Nat.ne_of_lt hkl) (Prod.mk.inj hsame).2
    · intro i j hi hj hij x hx hx'
      obtain ⟨b, hb, rfl⟩ := List.mem_map.mp hx
      obtain ⟨b', hb', heq⟩ := List.mem_map.mp hx'
      obtain ⟨k, hk⟩ := List.mem_iff_getElem?.mp hb
      obtain ⟨l, hl⟩ := List.mem_iff_getElem?.mp hb'
      exact hdistinct (List.getElem?_eq_getElem hi) (List.getElem?_eq_getElem hj) hk hl
        (fun hsame => (Nat.ne_of_lt hij) (Prod.mk.inj hsame).1) heq.symm

/-- The assignments of the entities that no service answers come last in a merged group; what
stands before them binds variables of triples, and computed ones of services. -/
theorem Collection.mergePatterns_assign (fragments : List Fragment) :
    ∃ front, mergePatterns fragments =
        front ++ assign ((fragments.filter (·.service.isNone)).flatMap (·.binds)) ∧
      ∀ v ∈ groupScope front, ∃ f ∈ fragments,
        f.Mentions v ∨ (f.service.isSome ∧ v ∈ f.binds.map Prod.snd) := by
  have hassign : ∀ l : List Fragment,
      l.flatMap Fragment.bindPatterns = assign (l.flatMap (·.binds)) := by
    intro l
    rw [assign, List.map_flatMap]
    rfl
  refine ⟨_, by rw [mergePatterns, hassign], fun v hv => ?_⟩
  simp only [Sparql.groupScope_append, Sparql.groupScope_flatMap, List.mem_append,
    Sparql.mem_scope_block, mem_scope_services, List.mem_flatMap,
    Fragment.mem_scope_optionalPatterns, Fragment.not_mem_scope_filterPatterns, List.mem_filter,
    and_false, exists_false, or_false] at hv
  rcases hv with (⟨t, ⟨f, ⟨hf, -⟩, ht⟩, hv⟩ | ⟨f, hf, hservice, hv⟩) | ⟨f, ⟨hf, -⟩, t, ht, hv⟩
  · exact ⟨f, hf, .inl ⟨t, List.mem_append_left _ ht, hv⟩⟩
  · exact ⟨f, hf, (Fragment.mem_scope_patterns.mp hv).imp_right fun hv => ⟨hservice, hv⟩⟩
  · exact ⟨f, hf, .inl ⟨t, List.mem_append_right _ ht, hv⟩⟩

namespace ComputesApart

variable {ns : Namespaces} {W : String → Prop} {parts : List Part} {p q : Part}
  {b : Expression × Var} {E : Engine} {G : Rdf.Graph} {ρ : Solution}

/-- A computed variable is that of one entity. -/
theorem eq_of_mem (h : ComputesApart ns W parts) (hp : p ∈ parts) (hq : q ∈ parts) {v : Var}
    (hv : v ∈ p.fragment.binds.map Prod.snd) (hv' : v ∈ q.fragment.binds.map Prod.snd) : p = q := by
  have : Std.Symm fun p q : Part =>
      (p.fragment.binds.map Prod.snd).Disjoint (q.fragment.binds.map Prod.snd) :=
    ⟨fun _ _ hdisjoint _ hq hp => hdisjoint hp hq⟩
  by_contra hne
  exact (List.nodup_flatMap.mp h.nodup).2.forall hp hq hne hv hv'

/-- A test looks at the names of its entity. -/
theorem reads (h : ComputesApart ns W parts) (hp : p ∈ parts) (hb : b ∈ p.fragment.binds) :
    b.1.Reads E fun v => ∃ name ∈ p.entity.computedNames, v = varOf name := by
  obtain ⟨key, relation, triples, hentry, htest, -⟩ := h.tests p hp b hb
  rw [htest]
  exact (relation.test_reads ns triples).mono fun v ⟨name, hname, heq⟩ =>
    ⟨name, Entity.mem_computedNames hentry hname, heq⟩

/-- The test of a computed key has a value under every solution, since EXISTS has one. -/
theorem test_isSome (h : ComputesApart ns W parts) (hp : p ∈ parts) (hb : b ∈ p.fragment.binds)
    (G : Rdf.Graph) (μ : Solution) : (b.1.value? E G μ).isSome := by
  obtain ⟨key, relation, triples, -, htest, -⟩ := h.tests p hp b hb
  rw [htest]
  exact relation.test_isSome ns triples G μ

/-- **Values of computed keys.**  In every solution of the group of all entities, a computed key
has the value of its test under that solution. -/
theorem value (h : ComputesApart ns W parts) (hE : E.CutsOnly)
    (hρ : ρ ∈ groupSolutions E G (Collection.mergePatterns (parts.map (·.fragment))))
    (hp : p ∈ parts) (hservice : p.fragment.service = none) (hb : b ∈ p.fragment.binds) :
    ρ b.2 = b.1.value? E G ρ := by
  obtain ⟨front, hgroup, hfront⟩ := Collection.mergePatterns_assign (parts.map (·.fragment))
  rw [hgroup] at hρ
  let local_ : List Part := parts.filter (·.fragment.service.isNone)
  have hlocal : (parts.map (·.fragment)).filter (·.service.isNone) = local_.map (·.fragment) := by
    rw [List.filter_map]
    rfl
  have hmem : ∀ b, b ∈ local_.flatMap (·.fragment.binds) ↔
      ∃ q ∈ parts, q.fragment.service = none ∧ b ∈ q.fragment.binds := by
    simp [local_, and_assoc]
  rw [hlocal, List.flatMap_map] at hρ
  refine Sparql.groupSolutions_assign hE ?_ ?_ ?_ hρ b ((hmem b).mpr ⟨p, hp, hservice, hb⟩)
  · rw [List.map_flatMap]
    exact h.nodup.sublist (List.filter_sublist.flatMap _)
  · intro b hb
    obtain ⟨q, hq, -, hb⟩ := (hmem b).mp hb
    refine (h.reads hq hb).mono ?_
    rintro _ ⟨name, hname, rfl⟩ hassigned
    obtain ⟨b', hb', heq⟩ := List.mem_map.mp hassigned
    obtain ⟨q', hq', -, hb'⟩ := (hmem b').mp hb'
    exact h.unwritten q' hq' b' hb' (heq ▸ h.names q hq name hname)
  · intro b hb hbound
    obtain ⟨q, hq, hlocal, hb⟩ := (hmem b).mp hb
    obtain ⟨f, hf, hsource⟩ := hfront _ hbound
    obtain ⟨q', hq', rfl⟩ := List.mem_map.mp hf
    rcases hsource with hmentioned | ⟨hremote, hv⟩
    · exact h.unmentioned q hq b hb q' hq' hmentioned
    · obtain rfl := h.eq_of_mem hq hq' (List.mem_map_of_mem hb) hv
      rw [hlocal] at hremote
      cases hremote

/-- The computed keys of one entity are apart. -/
theorem single (h : ComputesApart ns W parts) (hp : p ∈ parts) : ComputesApart ns W [p] := by
  have hsub : ∀ q ∈ [p], q ∈ parts := fun q hq => List.mem_singleton.mp hq ▸ hp
  exact ⟨fun q hq => h.unwritten q (hsub q hq), fun q hq => h.tests q (hsub q hq),
    fun q hq => h.names q (hsub q hq),
    fun q hq b hb q' hq' => h.unmentioned q (hsub q hq) b hb q' (hsub q' hq'),
    h.nodup.sublist ((List.singleton_sublist.mpr hp).flatMap _)⟩

end ComputesApart

end ObjectGraph
