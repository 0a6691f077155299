import ObjectGraph.Proofs.Compile.FollowUp
import ObjectGraph.Proofs.Compile.PlacedAtoms
import ObjectGraph.Proofs.Compile.SafeUpdates
import ObjectGraph.Proofs.Compile.TwoRuns

/-!
# What a deletion finds

A deletion compiles its entity as a query does that asks for neither keys nor types
(`Entity.selector`), but a query shares the names of the user before it starts and a deletion
does not.  So in a deletion a name that the user writes may be handed out before it is shared,
and then two variables become one.  Otherwise the deletion requires what the query requires, up
to a renaming that leaves the user's names alone (`compileDelete_selects`), for instance if
none of these names ends in a digit: all names that are made up do.

The triple that is deleted has two more variables, which are those of nothing else, whatever
the user writes (`Draft.Known`).
-/

namespace ObjectGraph

open Allocator (endsInDigit nameOf)
open Sparql (Atom Var Term Triple Expression Renaming Operation)

/-- The entity as a deletion compiles it: for its subject only. -/
def Entity.selector (e : Entity) : Entity :=
  { e with selection := some [], resolveType := false }

/-- The operation that deletes all triples of the subjects that a fragment finds. -/
def Fragment.deletion (f : Fragment) (p o : Var) : Operation :=
  let any : Triple := ⟨f.subject, .var p, .var o⟩
  .modify [any] [] (.triples (any :: f.mandatory) :: f.filterPatterns)

/-! ## Variables in use -/

/-- A property holds of all atoms of what a fragment requires. -/
structure Fragment.Requires (P : Atom → Prop) (f : Fragment) : Prop where
  subject : f.subject.All P
  mandatory : ∀ t ∈ f.mandatory, t.All P
  filters : ∀ g ∈ f.filters, g.All P

/-- A fragment that requires such atoms requires atoms of every wider kind. -/
theorem Fragment.Requires.mono {P Q : Atom → Prop} {f : Fragment} (h : f.Requires P)
    (hPQ : ∀ atom, P atom → Q atom) : f.Requires Q where
  subject := h.subject.mono hPQ
  mandatory t ht := (h.mandatory t ht).mono hPQ
  filters g hg := (h.filters g hg).mono hPQ

/-- Variables are in use for good. -/
def Allocator.Knows (a : Allocator) : Atom → Prop
  | .var v => Held v a
  | .iri _ | .tag _ | .label _ => True

namespace Allocator

variable {a a' : Allocator}

/-- An allocator that holds more names knows more atoms. -/
theorem Knows.mono (h : ∀ v, Held v a → Held v a') : ∀ atom, a.Knows atom → a'.Knows atom
  | .var v, hv => h v hv
  | .iri _, _ | .tag _, _ | .label _, _ => trivial

end Allocator

namespace Draft

/-- All that a draft requires is about variables in use. -/
structure Known (d : Draft) : Prop where
  sharedUsed : d.alloc.SharedUsed
  requires : d.fragment.Requires d.alloc.Knows

variable {ns : Namespaces} {config : Config} {e : Entity} {key : String} {d d' : Draft}

/-- A comparison is about its variable. -/
theorem knows_related {a : Allocator} {x : Var} {kind : Kind} {relation : Relation}
    {values : List Json.Value} {g : Expression} (hx : Held x a)
    (h : Filter.related x ns kind relation values = some g) : g.All a.Knows :=
  Filter.all_related hx
    (fun _ _ _ => Encode.all_value (fun _ _ => trivial) (fun _ _ _ => trivial)) h

/-- The filter of a condition is about the variable of the key, or a new one. -/
theorem knows_conditionFilter {a : Allocator} {subject : Term} {m : Mapping} {x : Var}
    {c : Condition} (ha : a.SharedUsed) (hsubject : subject.All a.Knows) (hx : Held x a) :
    ∀ g ∈ (conditionFilter ns e subject m key x c a).1,
      g.All (conditionFilter ns e subject m key x c a).2.Knows := by
  intro g hg
  unfold conditionFilter at hg ⊢
  cases c with
  | shared | computed => cases hg
  | value v =>
      dsimp only at hg
      rw [Filter.equality_eq] at hg
      exact knows_related hx hg
  | related relation values =>
      dsimp only at hg ⊢
      split at hg
      next hrelation =>
        rw [if_pos hrelation]
        rw [existence_eq] at hg ⊢
        obtain rfl := Option.some.inj hg
        refine Mapping.all_test trivial relation (hsubject.mono ?_) ⟨ha.fresh _, List.mem_cons_self⟩
        exact Allocator.Knows.mono fun v hv => (Held.lasting v).fresh _ _ hv
      next hrelation =>
        rw [if_neg hrelation]
        exact knows_related hx hg

/-- At the start all atoms are known. -/
theorem known_opening {a b : Allocator} {s : Term} (ha : a.SharedUsed)
    (h : e.subjectTerm ns a = .ok (s, b)) : (opening ns e s b).Known := by
  have hshared : b.SharedUsed := Lasting.sharedUsed.subjectTerm h ha
  have hsubject : s.All b.Knows := by
    rcases Entity.subjectTerm_cases h with
      ⟨iri, -, rfl, -⟩ | ⟨-, name, -, rfl, rfl⟩ | ⟨-, -, rfl, rfl⟩
    · trivial
    · exact ⟨hshared, List.mem_cons_self⟩
    · exact ⟨hshared, Allocator.join_name_mem ha _⟩
  have hstart : (start ns e s b).fragment.Requires b.Knows :=
    ⟨hsubject, by simp [start], by simp [start]⟩
  refine ⟨by rwa [opening_alloc], ?_⟩
  rw [opening_alloc]
  unfold opening addIdentity
  split
  next relation values x _ hx =>
    obtain rfl : s = .var x := hx
    refine ⟨hsubject, hstart.mandatory, fun g hg => ?_⟩
    exact knows_related hsubject (Option.mem_toList.mp hg)
  next => exact hstart

/-- The class of an entity adds no variable. -/
theorem Known.types (h : d.Known) (hresolve : e.resolveType = false) (hstep : Types ns e d d') :
    d'.Known := by
  cases hstep with
  | untyped => exact h
  | exact =>
      exact ⟨h.sharedUsed, h.requires.subject,
        forall_mem_snoc h.requires.mandatory ⟨h.requires.subject, trivial, trivial⟩,
        h.requires.filters⟩
  | resolved hresolve' =>
      rw [hresolve] at hresolve'
      cases hresolve'

/-- A condition requires no unknown atom. -/
theorem Known.restricts (h : d.Known) {c : Condition} (hstep : Restricts ns config e key d c d') :
    d'.Known := by
  have hshared : d'.alloc.SharedUsed := Lasting.sharedUsed.restricts hstep h.sharedUsed
  have hold : d.fragment.Requires d'.alloc.Knows :=
    h.requires.mono (Allocator.Knows.mono fun v hv => (Held.lasting v).restricts hstep hv)
  cases hstep with
  | keyword | selected | unmapped => exact h
  | computed => exact ⟨hshared, hold.subject, hold.mandatory, hold.filters⟩
  | @existence m relation =>
      refine ⟨hshared, hold.subject, hold.mandatory, forall_mem_snoc hold.filters ?_⟩
      exact Mapping.all_test trivial relation hold.subject ⟨hshared, List.mem_cons_self⟩
  | @hidden m =>
      have hx : Held (varFor e key (some c) d.alloc).1 (varFor e key (some c) d.alloc).2 := by
        refine ⟨Lasting.sharedUsed.varFor key _ h.sharedUsed, ?_⟩
        unfold varFor
        split
        · exact List.mem_cons_self
        · exact Allocator.join_name_mem h.sharedUsed _
      have hsubject : d.fragment.subject.All (varFor e key (some c) d.alloc).2.Knows :=
        h.requires.subject.mono
          (Allocator.Knows.mono fun v hv => (Held.lasting v).varFor key _ hv)
      refine ⟨hshared, hold.subject, ?_, ?_⟩
      · refine forall_mem_snoc hold.mandatory (Mapping.all_triple trivial hold.subject ?_)
        exact (Held.lasting _).fresh.conditionFilter c hx
      · intro g hg
        rcases List.mem_append.mp hg with hg | hg
        · exact hold.filters g hg
        · exact knows_conditionFilter hx.sharedUsed hsubject hx g (Option.mem_toList.mp hg)

end Draft

/-! ## Names that no number made -/

section

variable {W : String → Prop} (hW : ∀ n, W n → endsInDigit n = false)

include hW

/-- A name that ends in a digit is none of them. -/
theorem not_of_endsInDigit {n : String} (h : endsInDigit n = true) : ¬ W n := by
  intro hn
  rw [hW n hn] at h
  cases h

/-- What stands for a text with a number behind it is none of the user's names. -/
theorem obeys_of_undigited (a : Allocator) (s : String) (index : Nat) :
    Obeys W a (s ++ toString index) := by
  have hdigit := Allocator.endsInDigit_append_toString s index
  rintro (h | h)
  · exact (not_of_endsInDigit hW (Allocator.endsInDigit_join a hdigit) h).elim
  · exact (not_of_endsInDigit hW (Allocator.endsInDigit_nameOf hdigit) h).elim

/-- Names of the user that do not end in a digit disturb no run. -/
theorem Entity.undisturbed_of_undigited (ns : Namespaces) (config : Config)
    (options : CompileOptions) (e : Entity) (a : Allocator) :
    e.Undisturbed W ns config options a where
  subject _ _ := obeys_of_undigited hW a _ _
  conditions _ _ _ _ _ _ _ :=
    { key := fun _ _ _ _ => obeys_of_undigited hW _ _ _
      witness := fun _ _ _ _ => not_of_endsInDigit hW
        (Allocator.endsInDigit_fresh _ (Allocator.endsInDigit_append_toString _ e.index)) }

end

/-! ## Deletions -/

namespace Entity

variable {ns : Namespaces} {config : Config} {e : Entity} {a a' : Allocator} {f : Fragment}

/-- All that the fragment of a deletion requires is about variables in use. -/
theorem compile_selector_knows (ha : a.SharedUsed)
    (h : e.selector.compile ns config {} a = .ok (f, a')) : f.Requires a'.Knows := by
  obtain ⟨d, hd, rfl, rfl⟩ := compile_draft Draft.Known
    (fun _ _ hs => Draft.known_opening ha hs) (fun _ _ hd hstep => hd.types rfl hstep)
    (fun _ hkey _ _ _ _ => by cases hkey) (fun _ _ _ _ hd hstep => hd.restricts hstep) h
  exact ⟨hd.requires.subject, hd.requires.mandatory, hd.requires.filters⟩

end Entity

namespace Collection

variable {ns : Namespaces} {config : Config} {c : Collection} {e : Entity}

/-- A deletion is that of a fragment and two variables that are not in use before. -/
theorem compileDelete_single (hsingle : c.entities = [e]) {u : Sparql.Update}
    (h : c.compileDelete ns config = .ok u) :
    ∃ f b p o, e.selector.compile ns config {} .empty = .ok (f, b) ∧
      u = [Fragment.deletion f p o] ∧ p.name ∉ b.used ∧ o.name ∉ p.name :: b.used := by
  rw [compileDelete, hsingle] at h
  cases hop : Entity.compileDelete ns config e .empty with
  | error x => simp [Entity.operations, hop, bind, Except.bind] at h
  | ok made =>
      obtain ⟨op, a⟩ := made
      simp only [Entity.operations, hop, bind, Except.bind, Except.ok.injEq] at h
      obtain ⟨f, b, hf, rfl⟩ := Entity.compileDelete_cases hop
      exact ⟨f, b, _, _, hf, h.symm, b.fresh_not_mem _, (b.fresh _).2.fresh_not_mem _⟩

/-- The query for the subject of an entity has one fragment. -/
theorem compileSelect_selector (c : Collection) {a : Allocator} {made : Fragment × Allocator}
    (h : e.selector.compile ns config {} a = .ok made) :
    ∃ g b plan, e.selector.compile ns config {} (Entity.shareAll [e.selector] .empty) = .ok (g, b) ∧
      ({ c with entities := [e.selector] } : Collection).compileSelect ns config = .ok plan ∧
      plan.parts = [⟨e.selector, g⟩] := by
  obtain ⟨_, hs⟩ := Entity.subjectTerm_of_compile h
  obtain ⟨_, hs'⟩ := Entity.subjectTerm_total hs (Entity.shareAll [e.selector] .empty)
  obtain ⟨⟨g, b⟩, hg⟩ := Entity.compile_total hs' config {}
  have hparts : ({ c with entities := [e.selector] } : Collection).compileParts ns config {} =
      .ok [⟨e.selector, g⟩] := by
    simp [compileParts, Entity.compileEach, hg, bind, Except.bind]
  obtain ⟨plan, hplan⟩ :
      ∃ plan, ({ c with entities := [e.selector] } : Collection).compileSelect ns config =
        .ok plan := by
    simp [compileSelect, compileSelectWith, hparts, bind, Except.bind]
  have hsame := compileParts_of_select hplan
  rw [hparts] at hsame
  exact ⟨g, b, plan, hg, hplan, (Except.ok.inj hsame).symm⟩

/-- **A deletion finds what a query finds.**  The deletion of an entity requires, apart from the
triple that it deletes, what the query for its subject requires, up to a renaming that leaves
the names of the user alone, if the run of the deletion is not disturbed by them; and it is not
if none of them ends in a digit.  In any case the two variables of the triple are others. -/
theorem compileDelete_selects (hsingle : c.entities = [e]) {u : Sparql.Update}
    (h : c.compileDelete ns config = .ok u) :
    ∃ f p o, u = [f.deletion p o] ∧ p ≠ o ∧
      f.Requires (fun atom => atom ≠ .var p ∧ atom ≠ .var o) ∧
    ∃ g plan,
      ({ c with entities := [e.selector] } : Collection).compileSelect ns config = .ok plan ∧
      plan.parts = [⟨e.selector, g⟩] ∧
      (e.selector.Undisturbed c.Chooses ns config {} .empty →
        ∃ ρ : Renaming, (∀ n, c.Chooses n → ρ ⟨n⟩ = ⟨n⟩) ∧ f = g.rename ρ) ∧
      ((∀ name ∈ c.writtenNames, endsInDigit (nameOf name) = false) →
        e.selector.Undisturbed c.Chooses ns config {} .empty) := by
  obtain ⟨f, b, p, o, hf, rfl, hp, ho⟩ := compileDelete_single hsingle h
  obtain ⟨g, b', plan, hg, hplan, hparts⟩ := compileSelect_selector c hf
  have hchooses : ({ entities := [e.selector] } : Collection).Chooses = c.Chooses := by
    funext n
    simp [Chooses, writtenNames, hsingle, Entity.writtenNames, Entity.selector]
  have hreserves : Reserves c.Chooses (Entity.shareAll [e.selector] .empty) :=
    hchooses ▸ reserves_shareAll { entities := [e.selector] }
  have hwithin : ∀ entry ∈ e.selector.conditions, entry.2.Within c.Chooses :=
    within_chooses (c := c) (e := e) (by simp [hsingle])
  refine ⟨f, p, o, rfl, ?_, ?_, g, plan, hplan, hparts, ?_, ?_⟩
  · rintro rfl
    exact ho List.mem_cons_self
  · refine (Entity.compile_selector_knows Allocator.sharedUsed_empty hf).mono ?_
    rintro (v | _ | _ | _) hv
    · constructor <;> rintro ⟨⟩
      · exact hp hv.taken
      · exact ho (List.mem_cons_of_mem _ hv.taken)
    all_goals simp
  · intro hundisturbed
    have hquery : e.selector.Undisturbed c.Chooses ns config {}
        (Entity.shareAll [e.selector] .empty) :=
      Entity.undisturbed_of_reserves hreserves hwithin
    exact (Entity.compile_renamed (.inr ⟨rfl, rfl⟩) hwithin hreserves.ready.shared
      (by simp [Allocator.empty]) hquery hundisturbed hg hf).2
  · intro hdigits
    refine Entity.undisturbed_of_undigited ?_ ns config {} e.selector .empty
    rintro n ⟨name, hname, rfl⟩
    exact hdigits name hname

/-- A thing that has tags, and whose name is a variable of the user. -/
def taggedThing (name : String) : Entity where
  index := 0
  schema :=
    { targetClass := some "ex:Thing"
      context := [("tags", .str "ex:tag"), ("name", .str "ex:name")]
      properties := [("tags", { type := some "array" }), ("name", { type := some "string" })] }
  conditions := [("tags", .related .exist []), ("name", .shared name)]

/-- The variable of the user keeps its name, and the tags have a witness of their own. -/
theorem compileDelete_selects_taggedThing :
    let thing : Term := .var ⟨"eIri0"⟩
    let any : Triple := ⟨thing, .var ⟨"p0"⟩, .var ⟨"o0"⟩⟩
    let op : Operation :=
      .modify [any] []
        [.triples [any, exactType thing "http://example.org/Thing",
            ⟨thing, .iri "http://example.org/name", .var ⟨"label"⟩⟩],
          .filter (.exist
            [.triples [⟨thing, .iri "http://example.org/tag", .var ⟨"tagsExist0"⟩⟩]])]
    (single (taggedThing "label")).compileDelete .exampleOrg {} = .ok [op] ∧
    ∃ f p o g plan, op = f.deletion p o ∧
      (single (taggedThing "label").selector).compileSelect .exampleOrg {} = .ok plan ∧
      plan.parts = [⟨(taggedThing "label").selector, g⟩] ∧
      ∃ ρ : Renaming, ρ ⟨"label"⟩ = ⟨"label"⟩ ∧ f = g.rename ρ := by
  intro thing any op
  have hdelete : (single (taggedThing "label")).compileDelete .exampleOrg {} = .ok [op] := rfl
  obtain ⟨f, p, o, hop, -, -, g, plan, hplan, hparts, hrenamed, hdigits⟩ :=
    compileDelete_selects rfl hdelete
  obtain ⟨ρ, hfixed, hρ⟩ := hrenamed (hdigits (by decide))
  have hlabel : (single (taggedThing "label")).Chooses "label" := ⟨"label", .head _, by decide⟩
  exact ⟨hdelete, f, p, o, g, plan, (List.cons.inj hop).1, hplan, hparts, ρ, hfixed _ hlabel, hρ⟩

/-- A variable that is called as the witness of the tags is that witness in the deletion, which
so looks for things one tag of which is a name. -/
theorem tagsExist0_merged :
    let thing : Term := .var ⟨"eIri0"⟩
    let tag (x : Var) : Triple := ⟨thing, .iri "http://example.org/tag", .var x⟩
    let required : List Triple := [exactType thing "http://example.org/Thing",
      ⟨thing, .iri "http://example.org/name", .var ⟨"tagsExist0"⟩⟩]
    ∃ f p o g plan,
      (single (taggedThing "tagsExist0")).compileDelete .exampleOrg {} =
        .ok [Fragment.deletion f p o] ∧
      f.mandatory = required ∧ f.filters = [.exist [.triples [tag ⟨"tagsExist0"⟩]]] ∧
      (single (taggedThing "tagsExist0").selector).compileSelect .exampleOrg {} = .ok plan ∧
      plan.parts = [⟨(taggedThing "tagsExist0").selector, g⟩] ∧
      g.mandatory = required ∧ g.filters = [.exist [.triples [tag ⟨"tagsExist0_1"⟩]]] ∧
      ¬ ∃ ρ : Renaming, f.mandatory = g.mandatory.map (Triple.rename ρ) ∧
        f.filters = g.filters.map (Expression.rename ρ) := by
  intro thing tag required
  obtain ⟨f, p, o, g, plan, w, hdelete, hmandatory, hfilters, hselect, hparts, hmandatory',
      hfilters', hw⟩ : ∃ f p o g plan w,
        (single (taggedThing "tagsExist0")).compileDelete .exampleOrg {} =
          .ok [Fragment.deletion f p o] ∧
        f.mandatory = required ∧ f.filters = [.exist [.triples [tag ⟨"tagsExist0"⟩]]] ∧
        (single (taggedThing "tagsExist0").selector).compileSelect .exampleOrg {} = .ok plan ∧
        plan.parts = [⟨(taggedThing "tagsExist0").selector, g⟩] ∧
        g.mandatory = required ∧ g.filters = [.exist [.triples [tag w]]] ∧
        w = ⟨"tagsExist0_1"⟩ :=
    ⟨_, _, _, _, _, _, rfl, rfl, rfl, rfl, rfl, rfl, rfl, by decide +kernel⟩
  subst hw
  refine ⟨f, p, o, g, plan, hdelete, hmandatory, hfilters, hselect, hparts, hmandatory',
    hfilters', ?_⟩
  rintro ⟨ρ, hsameTriples, hsameFilters⟩
  rw [hmandatory, hmandatory'] at hsameTriples
  rw [hfilters, hfilters'] at hsameFilters
  -- both variables would have to become the one of the user
  have hname : ρ ⟨"tagsExist0"⟩ = ⟨"tagsExist0"⟩ := by
    have hobject := congrArg (fun ts : List Triple => ts[1]?.map (·.object)) hsameTriples
    simpa [required, Triple.rename, eq_comm] using hobject
  have hwitness : ρ ⟨"tagsExist0_1"⟩ = ⟨"tagsExist0"⟩ := by
    have htriple : tag ⟨"tagsExist0"⟩ = (tag ⟨"tagsExist0_1"⟩).rename ρ := by
      simpa [Expression.rename, Sparql.renameGroup, Sparql.Pattern.rename] using hsameFilters
    exact (Term.var.inj (congrArg Triple.object htriple)).symm
  exact absurd (ρ.injective (hwitness.trans hname.symm)) (by decide)

end Collection

end ObjectGraph
