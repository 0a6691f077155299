import ObjectGraph.Proofs.Compile.Conditions
import ObjectGraph.Proofs.Compile.SharedNames

/-!
# Which wishes a written name fulfils

While an entity is compiled, names are asked for: for its subject, for the variables of its
type and for its keys, each time with a stem and the index of the entity (`Wish`, `Asks`).
A wish that stands for a name which the collection writes is given that very name, all others
are given new ones (`Asks.name_iff`).  Whether one name fulfils two wishes is therefore a
matter of what they ask for (`Unambiguous`): two keys may differ in characters that no name
has, or a key may end in a digit and be taken for another one with an index behind it.  Keys
that are plain names tell their wishes apart (`Wish.text_inj`).
-/

namespace ObjectGraph

open Allocator (IsName endsInDigit nameOf)
open Sparql (Var Term Triple Expression)

/-- What an entity asks a name for. -/
inductive Wish where
  | subject
  | type
  | subtype
  | supertype
  | key (key : String)
  deriving DecidableEq

namespace Wish

/-- What a wish asks for, apart from the entity. -/
def stem : Wish → String
  | .subject => "eIri"
  | .type => "type"
  | .subtype => "subtype"
  | .supertype => "supertype"
  | .key k => k

/-- What the wish of an entity asks for. -/
def text (w : Wish) (index : Nat) : String :=
  w.stem ++ toString index

end Wish

/-! ## Wishes of an entity -/

namespace Entity

/-- A wish that compiling an entity puts, and the names in use when it does.  A key that
shares a variable puts none, and a test for existence asks for a witness of its own. -/
inductive Asks (ns : Namespaces) (config : Config) (options : CompileOptions) (e : Entity)
    (a : Allocator) : Wish → Allocator → Prop
  | subject {v : Var} {b : Allocator} (hsubject : e.subjectTerm ns a = .ok (.var v, b))
      (hname : e.identityName? = none) : Asks ns config options e a .subject a
  | type {s : Term} {b : Allocator} (hsubject : e.subjectTerm ns a = .ok (s, b))
      (hresolve : e.resolveType = true) : Asks ns config options e a .type b
  | subtype {s : Term} {b : Allocator} (hsubject : e.subjectTerm ns a = .ok (s, b))
      (hresolve : e.resolveType = true) :
      Asks ns config options e a .subtype (b.join (Wish.type.text e.index)).2
  | supertype {s : Term} {b : Allocator} {class_ : String}
      (hsubject : e.subjectTerm ns a = .ok (s, b)) (hresolve : e.resolveType = true)
      (hclass : e.class? ns = some class_) :
      Asks ns config options e a .supertype
        ((b.join (Wish.type.text e.index)).2.join (Wish.subtype.text e.index)).2
  | selected {s : Term} {b : Allocator} {key : String} {done rest : List String}
      {p : PropertySchema} {m : Mapping} (hsubject : e.subjectTerm ns a = .ok (s, b))
      (hkeys : e.selectedKeys = done ++ key :: rest) (hkey : Schema.isKeyword key = false)
      (hshared : ∀ name, e.condition? key ≠ some (.shared name))
      (hcomputed : (e.condition? key).any Condition.isComputed = false)
      (hproperty : e.schema.property? key = some p)
      (hnow : (p.kind.isArray && options.deferArrays) = false)
      (hmapping : e.mapping? ns key = some m) :
      Asks ns config options e a (.key key) (e.selecting ns options s b done).alloc
  | hidden {s : Term} {b : Allocator} {key : String} {c : Condition}
      {done rest : List (String × Condition)} {m : Mapping}
      (hsubject : e.subjectTerm ns a = .ok (s, b))
      (hentries : e.conditions = done ++ (key, c) :: rest) (hkey : Schema.isKeyword key = false)
      (hfree : (e.restricting ns config options s b done).fragment.props.contains key = false)
      (hshared : ∀ name, c ≠ .shared name) (hnarrows : c.narrows = true)
      (hmapping : e.mapping? ns key = some m) :
      Asks ns config options e a (.key key) (e.restricting ns config options s b done).alloc
  | computed {s : Term} {b : Allocator} {key : String} {relation : BindRelation}
      {triples : List BindTriple} {done rest : List (String × Condition)}
      (hsubject : e.subjectTerm ns a = .ok (s, b))
      (hentries : e.conditions = done ++ (key, .computed relation triples) :: rest)
      (hkey : Schema.isKeyword key = false)
      (hfree : (e.restricting ns config options s b done).fragment.props.contains key = false) :
      Asks ns config options e a (.key key) (e.restricting ns config options s b done).alloc

end Entity

/-- A fragment has a variable where a wish wants it. -/
inductive Fragment.Fulfils (ns : Namespaces) (e : Entity) (f : Fragment) : Wish → Var → Prop
  | subject {v : Var} (h : f.subject = .var v) : Fulfils ns e f .subject v
  | type {v : Var} (h : Triple.ofType f.subject (.var v) ∈ f.mandatory) : Fulfils ns e f .type v
  | subtype {type v : Var} (h : MostSpecificType.noNarrower f.subject type v ∈ f.filters) :
      Fulfils ns e f .subtype v
  | supertype {type v : Var} {class_ : String}
      (h : MostSpecificType.under type v class_ ∈ f.filters) : Fulfils ns e f .supertype v
  | stored {key : String} {m : Mapping} {v : Var} (hmapping : e.mapping? ns key = some m)
      (h : m.triple f.subject (.var v) ∈ f.mandatory ∨
        m.triple f.subject (.var v) ∈ f.optional) : Fulfils ns e f (.key key) v
  | computed {key : String} {relation : BindRelation} {triples : List BindTriple} {v : Var}
      (hentry : (key, .computed relation triples) ∈ e.conditions)
      (h : (relation.test ns triples, v) ∈ f.binds) : Fulfils ns e f (.key key) v

/-- Once a wish has its variable it keeps it. -/
theorem Fragment.Fulfils.extend {ns : Namespaces} {e : Entity} {f f' : Fragment} {w : Wish}
    {v : Var} (h : f.Fulfils ns e w v) (hextends : f.Extends f') : f'.Fulfils ns e w v := by
  have hsubject := hextends.subject
  cases h with
  | subject hv => exact .subject (hsubject.trans hv)
  | type hv => exact .type (hsubject ▸ hextends.mandatory hv)
  | subtype hv => exact .subtype (hsubject ▸ hextends.filters hv)
  | supertype hv => exact .supertype (hextends.filters hv)
  | stored hmapping hv =>
      refine .stored hmapping ?_
      rw [hsubject]
      exact hv.imp (hextends.mandatory ·) (hextends.optional ·)
  | computed hentry hv => exact .computed hentry (hextends.binds hv)

namespace Entity

variable {W : String → Prop} {ns : Namespaces} {config : Config} {options : CompileOptions}
  {e : Entity} {a a' b : Allocator} {f : Fragment} {s : Term} {w : Wish}

/-- The variables of a type stand in its triple and its filters. -/
theorem fulfils_type (ns : Namespaces) (d : Draft) (hresolve : e.resolveType = true) :
    let type := d.alloc.join (Wish.type.text e.index)
    let subtype := type.2.join (Wish.subtype.text e.index)
    let f := (d.addType ns e).fragment
    f.Fulfils ns e .type type.1 ∧ f.Fulfils ns e .subtype subtype.1 ∧
      ∀ class_, e.class? ns = some class_ →
        f.Fulfils ns e .supertype (subtype.2.join (Wish.supertype.text e.index)).1 := by
  unfold Draft.addType
  simp only [hresolve, if_true]
  unfold MostSpecificType.compile
  cases hclass : e.class? ns with
  | none =>
      exact ⟨.type (List.mem_append_right _ (.head _)),
        .subtype (List.mem_append_right _ (.head _)), nofun⟩
  | some class_ =>
      exact ⟨.type (List.mem_append_right _ (.head _)),
        .subtype (List.mem_append_right _ (.head _)),
        fun _ _ => .supertype (List.mem_append_right _ (.tail _ (.head _)))⟩

/-- A selected key that asks for a name stands in its triple with it. -/
theorem fulfils_selected {d : Draft} {key : String} {p : PropertySchema} {m : Mapping}
    (hkey : Schema.isKeyword key = false)
    (hshared : ∀ name, e.condition? key ≠ some (.shared name))
    (hcomputed : (e.condition? key).any Condition.isComputed = false)
    (hproperty : e.schema.property? key = some p)
    (hnow : (p.kind.isArray && options.deferArrays) = false)
    (hmapping : e.mapping? ns key = some m) :
    (Draft.addSelected ns options e d key).fragment.Fulfils ns e (.key key)
      (d.alloc.join (Wish.text (.key key) e.index)).1 := by
  have hid : key ≠ "@id" := by
    rintro rfl
    cases hkey
  have htype : key ≠ "@type" := by
    rintro rfl
    cases hkey
  have hstep : Draft.addSelected ns options e d key = Draft.addProperty ns e key m d := by
    simp [Draft.addSelected, hid, htype, hcomputed, hproperty, hnow, hmapping]
  have hvar : Draft.varFor e key (e.condition? key) d.alloc =
      d.alloc.join (Wish.text (.key key) e.index) := by
    unfold Draft.varFor
    split
    next name hc => exact (hshared name hc).elim
    next => rfl
  rw [hstep, ← hvar]
  refine .stored hmapping ?_
  rw [Draft.addProperty_mandatory, Draft.addProperty_optional]
  by_cases hmust : Draft.mustHave e key = true
  · exact .inl (by rw [if_pos hmust]; exact List.mem_append_right _ (.head _))
  · exact .inr (by rw [if_neg hmust]; exact List.mem_append_right _ (.head _))

/-- A condition that asks for a name stands in its triple with it. -/
theorem fulfils_hidden {d : Draft} {key : String} {c : Condition} {m : Mapping}
    (hkey : Schema.isKeyword key = false) (hfree : d.fragment.props.contains key = false)
    (hshared : ∀ name, c ≠ .shared name) (hnarrows : c.narrows = true)
    (hmapping : e.mapping? ns key = some m) :
    (Draft.addCondition ns config e d (key, c)).fragment.Fulfils ns e (.key key)
      (d.alloc.join (Wish.text (.key key) e.index)).1 := by
  have hstep : Draft.addCondition ns config e d (key, c) = Draft.addHidden ns e key m c d := by
    cases c with
    | shared name => exact (hshared name rfl).elim
    | computed => cases hnarrows
    | value => simp [Draft.addCondition, hkey, hfree, hmapping]
    | related relation values =>
        have hrelation : relation.isExistence = false := by simpa [Condition.narrows] using hnarrows
        simp [Draft.addCondition, hkey, hfree, hmapping, hrelation]
  have hvar : Draft.varFor e key (some c) d.alloc =
      d.alloc.join (Wish.text (.key key) e.index) := by
    cases c with
    | shared name => exact (hshared name rfl).elim
    | value | related | computed => rfl
  rw [hstep, ← hvar]
  exact .stored hmapping (.inl (List.mem_append_right _ (.head _)))

/-- A computed key that asks for a name is bound to its test with it. -/
theorem fulfils_computed {d : Draft} {key : String} {relation : BindRelation}
    {triples : List BindTriple} (hkey : Schema.isKeyword key = false)
    (hfree : d.fragment.props.contains key = false)
    (hentry : (key, .computed relation triples) ∈ e.conditions) :
    (Draft.addCondition ns config e d (key, .computed relation triples)).fragment.Fulfils ns e
      (.key key) (d.alloc.join (Wish.text (.key key) e.index)).1 := by
  have hstep : Draft.addCondition ns config e d (key, .computed relation triples) =
      Draft.addComputed ns config e key relation triples d := by
    simp [Draft.addCondition, hkey, hfree]
  rw [hstep]
  refine .computed hentry ?_
  rw [Draft.addComputed_binds]
  exact List.mem_append_right _ (.head _)

/-- Whoever asks is given a variable that the fragment has where it is wanted. -/
theorem Asks.fulfils (hasks : e.Asks ns config options a w b)
    (h : e.compile ns config options a = .ok (f, a')) :
    f.Fulfils ns e w (b.join (w.text e.index)).1 := by
  have hlast : ∀ {s c} (_ : e.subjectTerm ns a = .ok (s, c)) {f' : Fragment} {v : Var},
      f'.Extends (e.restricting ns config options s c e.conditions).fragment →
        f'.Fulfils ns e w v → f.Fulfils ns e w v := by
    intro s c hsubject f' v hextends hv
    rw [compile_restricting h hsubject]
    exact (hv.extend hextends).extend (.selected _ _)
  cases hasks with
  | @subject v c hsubject hname =>
      have hvar : v = (a.join (Wish.text .subject e.index)).1 := by
        rcases subjectTerm_cases hsubject with ⟨_, _, hv, _⟩ | ⟨_, name, hc, _⟩ | ⟨_, _, hv, _⟩
        · cases hv
        · simp [identityName?, hc, Condition.sharedName?] at hname
        · exact Term.var.inj hv
      rw [← hvar]
      refine hlast hsubject addType_extends (.subject ?_)
      exact (Draft.addType_types ns e _).extends.subject.trans (Draft.opening_subject ..)
  | @type s _ hsubject hresolve =>
      have htype := fulfils_type ns (Draft.opening ns e s b) hresolve
      rw [Draft.opening_alloc] at htype
      exact hlast hsubject addType_extends htype.1
  | @subtype s c hsubject hresolve =>
      have htype := fulfils_type ns (Draft.opening ns e s c) hresolve
      rw [Draft.opening_alloc] at htype
      exact hlast hsubject addType_extends htype.2.1
  | @supertype s c class_ hsubject hresolve hclass =>
      have htype := fulfils_type ns (Draft.opening ns e s c) hresolve
      rw [Draft.opening_alloc] at htype
      exact hlast hsubject addType_extends (htype.2.2 class_ hclass)
  | selected hsubject hkeys hkey hshared hcomputed hproperty hnow hmapping =>
      exact hlast hsubject (addSelected_extends hkeys)
        (fulfils_selected hkey hshared hcomputed hproperty hnow hmapping)
  | hidden hsubject hentries hkey hfree hshared hnarrows hmapping =>
      exact hlast hsubject (addCondition_extends hentries)
        (fulfils_hidden hkey hfree hshared hnarrows hmapping)
  | computed hsubject hentries hkey hfree =>
      have hentry := hentries ▸ List.mem_append_right _ (List.mem_cons_self ..)
      exact hlast hsubject (addCondition_extends hentries) (fulfils_computed hkey hfree hentry)

/-- Where an entity asks for a name, the written names are still kept. -/
theorem Asks.reserves (hasks : e.Asks ns config options a w b) (ha : Reserves W a)
    (hwithin : ∀ entry ∈ e.conditions, entry.2.Within W) : Reserves W b := by
  have hnamed : ∀ {s c}, e.subjectTerm ns a = .ok (s, c) → Reserves W c := by
    intro s c hs
    have hc := (Draft.Steady.opening ha.ready ha.shared hwithin hs).reserves
    rwa [Draft.opening_alloc] at hc
  cases hasks with
  | subject => exact ha
  | type hsubject => exact hnamed hsubject
  | subtype hsubject => exact (hnamed hsubject).join _
  | supertype hsubject => exact ((hnamed hsubject).join _).join _
  | selected hsubject hkeys => exact (selecting_steady ha hwithin hsubject hkeys).reserves
  | hidden hsubject hentries => exact (restricting_steady ha hwithin hsubject hentries).reserves
  | computed hsubject hentries => exact (restricting_steady ha hwithin hsubject hentries).reserves

/-- **What a written name fulfils.**  A wish is given a written name exactly if that is the
name it asks for. -/
theorem Asks.name_iff (hasks : e.Asks ns config options a w b) (ha : Reserves W a)
    (hwithin : ∀ entry ∈ e.conditions, entry.2.Within W) {n : String} (hn : W n) :
    (b.join (w.text e.index)).1.name = n ↔ nameOf (w.text e.index) = n := by
  have hb := hasks.reserves ha hwithin
  have hname := Draft.name_of_join hb.ready hb.shared (w.text e.index)
  constructor
  · rintro rfl
    exact (hname (.inl hn)).symm
  · rintro rfl
    exact hname (.inr hn)

/-- The names in use once entities are compiled. -/
def namesAfter (ns : Namespaces) (config : Config) (options : CompileOptions)
    (entities : List Entity) (a : Allocator) : Except MapperError Allocator :=
  entities.foldlM (fun a e => (e.compile ns config options a).map (·.2)) a

/-- An entity of a collection is compiled from the names that the entities before it leave. -/
theorem compileEach_split {keeps : Allocator → Prop} {done rest : List Entity}
    (hkeeps : ∀ e ∈ done, ∀ a f a', keeps a → e.compile ns config options a = .ok (f, a') →
      keeps a') (ha : keeps a) {parts : List Part}
    (h : compileEach ns config options (done ++ e :: rest) a = .ok parts)
    (hnames : namesAfter ns config options done a = .ok b) :
    keeps b ∧ ∃ f b', parts[done.length]? = some ⟨e, f⟩ ∧
      e.compile ns config options b = .ok (f, b') := by
  induction done generalizing a parts with
  | nil =>
      obtain ⟨f, b', others, hcompile, -, rfl⟩ := compileEach_cons h
      cases hnames
      exact ⟨ha, f, b', rfl, hcompile⟩
  | cons d done ih =>
      obtain ⟨f, b', others, hcompile, hothers, rfl⟩ := compileEach_cons h
      have hnext : namesAfter ns config options done b' = .ok b := by
        simpa [namesAfter, List.foldlM_cons, hcompile, Except.map, bind, Except.bind] using hnames
      exact ih (fun e he => hkeeps e (List.mem_cons_of_mem _ he))
        (hkeeps d List.mem_cons_self a f b' ha hcompile) hothers hnext

end Entity

/-! ## Wishes that differ -/

namespace Wish

/-- A key is a name that does not end in a digit, and none of the other stems. -/
def IsPlain : Wish → Prop
  | .key k => IsName k ∧ endsInDigit k = false ∧ k ∉ ["eIri", "type", "subtype", "supertype"]
  | _ => True

variable {w w' : Wish}

/-- A plain wish asks for a name. -/
theorem IsPlain.isName (h : w.IsPlain) : IsName w.stem := by
  cases w with
  | key k => exact h.1
  | subject | type | subtype | supertype => exact Allocator.nameOf_eq_self_iff.mp (by decide)

/-- A plain wish asks for no name that ends in a digit, so the number of the entity can be told
from it. -/
theorem IsPlain.endsInDigit (h : w.IsPlain) : endsInDigit w.stem = false := by
  cases w with
  | key k => exact h.2.1
  | subject | type | subtype | supertype => decide

/-- Plain wishes have stems of their own. -/
theorem stem_inj (h : w.IsPlain) (h' : w'.IsPlain) (heq : w.stem = w'.stem) : w = w' := by
  cases w with
  | key k =>
      cases w' with
      | key k' => exact congrArg Wish.key heq
      | subject | type | subtype | supertype =>
          obtain rfl : k = _ := heq
          exact absurd h.2.2 (by decide)
  | subject | type | subtype | supertype =>
      cases w' with
      | key k =>
          obtain rfl : _ = k := heq
          exact absurd h'.2.2 (by decide)
      | subject | type | subtype | supertype => first | rfl | exact absurd heq (by decide)

/-- **Plain wishes differ in what they ask for.** -/
theorem text_inj (h : w.IsPlain) (h' : w'.IsPlain) {i j : Nat}
    (heq : nameOf (w.text i) = nameOf (w'.text j)) : i = j ∧ w = w' := by
  unfold text at heq
  rw [Allocator.nameOf_eq_self_iff.mpr (h.isName.append_toString i),
    Allocator.nameOf_eq_self_iff.mpr (h'.isName.append_toString j)] at heq
  obtain ⟨hstem, hindex⟩ := Allocator.append_toString_inj h.endsInDigit h'.endsInDigit heq
  exact ⟨hindex, stem_inj h h' hstem⟩

end Wish

/-- The keys that an entity asks for are plain. -/
def Entity.HasPlainKeys (e : Entity) : Prop :=
  ∀ key ∈ e.selectedKeys ++ e.conditions.map (·.1), Schema.isKeyword key = false →
    (Wish.key key).IsPlain

/-- Plain keys make plain wishes. -/
theorem Entity.Asks.isPlain {ns : Namespaces} {config : Config} {options : CompileOptions}
    {e : Entity} {a b : Allocator} {w : Wish} (h : e.Asks ns config options a w b)
    (hplain : e.HasPlainKeys) : w.IsPlain := by
  cases h with
  | subject | type | subtype | supertype => trivial
  | selected _ hkeys hkey => exact hplain _ (by simp [hkeys]) hkey
  | hidden _ hentries hkey | computed _ hentries hkey => exact hplain _ (by simp [hentries]) hkey

/-! ## Wishes of a collection -/

namespace Collection

/-- The variable that is given to a wish of the entity at a place. -/
inductive Grants (ns : Namespaces) (config : Config) (c : Collection) : Nat × Wish → Var → Prop
  | entity {done rest : List Entity} {e : Entity} {a b : Allocator} {w : Wish}
      (hentities : c.entities = done ++ e :: rest)
      (hnames : Entity.namesAfter ns config {} done (Entity.shareAll c.entities .empty) = .ok a)
      (hasks : e.Asks ns config {} a w b) :
      Grants ns config c (done.length, w) (b.join (w.text e.index)).1

/-- The name that a wish of the entity at a place asks for. -/
def wishedName? (c : Collection) (s : Nat × Wish) : Option String :=
  c.entities[s.1]?.map fun e => nameOf (s.2.text e.index)

/-- At most one wish is given a name. -/
def Unambiguous (ns : Namespaces) (config : Config) (c : Collection) (n : String) : Prop :=
  ∀ s t v w, c.Grants ns config s v → c.Grants ns config t w → v.name = n → w.name = n → s = t

variable {ns : Namespaces} {config : Config} {c : Collection} {parts : List Part}

/-- A wish that is granted is put by an entity of the collection, which is compiled from
names that keep the written ones. -/
theorem Grants.cases {s : Nat × Wish} {v : Var} (h : c.Grants ns config s v)
    (hparts : c.compileParts ns config {} = .ok parts) :
    ∃ e a a' b f, c.entities[s.1]? = some e ∧ parts[s.1]? = some ⟨e, f⟩ ∧
      Reserves c.Chooses a ∧ e.compile ns config {} a = .ok (f, a') ∧
      e.Asks ns config {} a s.2 b ∧ v = (b.join (s.2.text e.index)).1 := by
  cases h with
  | @entity done rest e a b w hentities hnames hasks =>
      unfold compileParts at hparts
      have hkeeps : ∀ d ∈ done, ∀ a f a', Reserves c.Chooses a →
          d.compile ns config {} a = .ok (f, a') → Reserves c.Chooses a' := by
        intro d hd a f a' ha hcompile
        exact reserves_compile (hentities ▸ List.mem_append_left _ hd) ha hcompile
      have hstart := c.reserves_shareAll
      generalize Entity.shareAll c.entities .empty = start at hparts hnames hstart
      rw [hentities] at hparts
      obtain ⟨ha, f, a', hpart, hcompile⟩ :=
        Entity.compileEach_split hkeeps hstart hparts hnames
      refine ⟨e, a, a', b, f, ?_, hpart, ha, hcompile, hasks, rfl⟩
      simp [hentities]

/-- A wish that is granted a written name is one that asks for it. -/
theorem Grants.name_iff {s : Nat × Wish} {v : Var} (h : c.Grants ns config s v)
    (hparts : c.compileParts ns config {} = .ok parts) {n : String} (hn : c.Chooses n) :
    v.name = n ↔ c.wishedName? s = some n := by
  obtain ⟨e, a, a', b, f, hentity, -, ha, -, hasks, rfl⟩ := h.cases hparts
  rw [wishedName?, hentity, Option.map_some, Option.some.injEq]
  exact hasks.name_iff ha (within_chooses (List.mem_of_getElem? hentity)) hn

/-- What a wish is granted stands in the fragment of the entity where it is wanted. -/
theorem Grants.fulfils {s : Nat × Wish} {v : Var} (h : c.Grants ns config s v)
    (hparts : c.compileParts ns config {} = .ok parts) :
    ∃ p, parts[s.1]? = some p ∧ p.fragment.Fulfils ns p.entity s.2 v := by
  obtain ⟨e, a, a', b, f, -, hpart, -, hcompile, hasks, rfl⟩ := h.cases hparts
  exact ⟨⟨e, f⟩, hpart, hasks.fulfils hcompile⟩

/-- Wishes of a collection that ask for one name are one, if its keys are plain and its
entities are numbered by their places. -/
theorem wishedName?_inj (hindex : ∀ i (e : Entity), c.entities[i]? = some e → e.index = i)
    {s t : Nat × Wish} (hs : s.2.IsPlain) (ht : t.2.IsPlain) {n : String}
    (h : c.wishedName? s = some n) (h' : c.wishedName? t = some n) : s = t := by
  obtain ⟨e, he, rfl⟩ := Option.map_eq_some_iff.mp h
  obtain ⟨d, hd, heq⟩ := Option.map_eq_some_iff.mp h'
  obtain ⟨hplace, hwish⟩ := Wish.text_inj ht hs heq
  rw [hindex _ _ hd, hindex _ _ he] at hplace
  exact Prod.ext hplace.symm hwish.symm

/-- **One written name, one wish.**  What a wish is granted stands in the query where it is
wanted, and a written name is granted exactly to the wishes that ask for it.  So it is
unambiguous exactly if not two of them ask for it, and always if all keys are plain. -/
theorem unambiguous_iff
    (hparts : (∃ plan, c.compileSelect ns config = .ok plan ∧ plan.parts = parts) ∨
      ∃ plan, c.compileConstruct ns config = .ok plan ∧ plan.parts = parts)
    {n : String} (hn : c.Chooses n) :
    (∀ s v, c.Grants ns config s v →
      (v.name = n ↔ c.wishedName? s = some n) ∧
      ∃ p, parts[s.1]? = some p ∧ p.fragment.Fulfils ns p.entity s.2 v) ∧
    (c.Unambiguous ns config n ↔
      ∀ s t v w, c.Grants ns config s v → c.Grants ns config t w →
        c.wishedName? s = some n → c.wishedName? t = some n → s = t) ∧
    ((∀ i (e : Entity), c.entities[i]? = some e → e.index = i) →
      (∀ e ∈ c.entities, e.HasPlainKeys) → c.Unambiguous ns config n) := by
  have hcompiled := compileParts_of_main hparts
  have hname : ∀ {s v}, c.Grants ns config s v → (v.name = n ↔ c.wishedName? s = some n) :=
    fun h => h.name_iff hcompiled hn
  refine ⟨fun s v h => ⟨hname h, h.fulfils hcompiled⟩, ?_, ?_⟩
  · constructor
    · intro h s t v w hs ht hsn htn
      exact h s t v w hs ht ((hname hs).mpr hsn) ((hname ht).mpr htn)
    · intro h s t v w hs ht hvn hwn
      exact h s t v w hs ht ((hname hs).mp hvn) ((hname ht).mp hwn)
  · intro hindex hplain s t v w hs ht hvn hwn
    have hisPlain : ∀ {s v}, c.Grants ns config s v → s.2.IsPlain := by
      intro s v h
      obtain ⟨e, _, _, _, _, hentity, -, -, -, hasks, -⟩ := h.cases hcompiled
      exact hasks.isPlain (hplain e (List.mem_of_getElem? hentity))
    exact wishedName?_inj hindex (hisPlain hs) (hisPlain ht) ((hname hs).mp hvn)
      ((hname ht).mp hwn)

/-- A person with a name. -/
def namedPerson : Entity where
  index := 0
  schema :=
    { targetClass := some "ex:Person"
      context := [("name", .str "ex:name")]
      properties := [("name", {})] }

/-- A place whose label is the name of the person. -/
def labelledPlace : Entity where
  index := 1
  schema :=
    { targetClass := some "ex:Place"
      context := [("label", .str "ex:label")]
      properties := [("label", {})] }
  conditions := [("label", .shared "name0")]

/-- The label of the place stands for the name of the person and for nothing else. -/
theorem unambiguous_iff_namesakes :
    let c : Collection := { entities := [namedPerson, labelledPlace] }
    c.Chooses "name0" ∧ c.Grants .exampleOrg {} (0, .key "name") ⟨"name0"⟩ ∧
      c.Unambiguous .exampleOrg {} "name0" := by
  intro c
  have hchosen : c.Chooses "name0" := ⟨"name0", .head _, by decide⟩
  obtain ⟨plan, hplan⟩ : ∃ plan, c.compileSelect .exampleOrg {} = .ok plan := ⟨_, rfl⟩
  refine ⟨hchosen, ?_, (unambiguous_iff (.inl ⟨plan, hplan, rfl⟩) hchosen).2.2 ?_ ?_⟩
  · have hentities : c.entities = [] ++ namedPerson :: [labelledPlace] := rfl
    have hsubject : namedPerson.subjectTerm .exampleOrg (Entity.shareAll c.entities .empty) =
        .ok (.var ⟨"eIri0"⟩, ⟨["eIri0", "name0"], ["name0"]⟩) := rfl
    have hkeys : namedPerson.selectedKeys = ["@id"] ++ "name" :: [] := by decide
    exact .entity hentities rfl (.selected hsubject hkeys (by decide) nofun (by decide) rfl rfl rfl)
  · intro i e he
    match i with
    | 0 | 1 =>
        obtain rfl := Option.some.inj he
        rfl
    | i + 2 => cases he
  · have hplain : ∀ key ∈ ["name", "label"], (Wish.key key).IsPlain := by
      intro key hkey
      rcases List.mem_cons.mp hkey with rfl | hkey
      · exact ⟨Allocator.nameOf_eq_self_iff.mp (by decide), by decide, by decide⟩
      · obtain rfl := List.mem_singleton.mp hkey
        exact ⟨Allocator.nameOf_eq_self_iff.mp (by decide), by decide, by decide⟩
    have hkeys : ∀ e ∈ c.entities, ∀ key ∈ e.selectedKeys ++ e.conditions.map (·.1),
        Schema.isKeyword key = false → key ∈ ["name", "label"] := by decide
    exact fun e he key hkey hword => hplain key (hkeys e he key hkey hword)

/-- A person with two keys of which the names are made of the same letters. -/
def nicknamedPerson : Entity where
  index := 0
  schema :=
    { targetClass := some "ex:Person"
      context := [("nick-name", .str "ex:nick"), ("nick_name", .str "ex:handle")]
      properties :=
        [("nick-name", { format := some "iri" }), ("nick_name", { format := some "iri" })] }

/-- A name that is what both keys ask for. -/
def nickname : Entity where
  index := 1
  schema := { targetClass := some "ex:Name" }
  conditions := [("@id", .shared "nick_name0")]

/-- One reference forces two properties to be equal. -/
theorem nick_name0_granted_twice :
    let c : Collection := { entities := [nicknamedPerson, nickname] }
    c.Grants .exampleOrg {} (0, .key "nick-name") ⟨"nick_name0"⟩ ∧
    c.Grants .exampleOrg {} (0, .key "nick_name") ⟨"nick_name0"⟩ ∧
    c.Chooses "nick_name0" ∧ ¬ c.Unambiguous .exampleOrg {} "nick_name0" ∧
    ∃ plan p q, c.compileSelect .exampleOrg {} = .ok plan ∧ plan.parts = [p, q] ∧
      p.fragment.optional =
        [⟨.var ⟨"eIri0"⟩, .iri "http://example.org/nick", .var ⟨"nick_name0"⟩⟩,
          ⟨.var ⟨"eIri0"⟩, .iri "http://example.org/handle", .var ⟨"nick_name0"⟩⟩] ∧
      q.fragment.subject = .var ⟨"nick_name0"⟩ := by
  intro c
  have hentities : c.entities = [] ++ nicknamedPerson :: [nickname] := rfl
  have hsubject : nicknamedPerson.subjectTerm .exampleOrg (Entity.shareAll c.entities .empty) =
      .ok (.var ⟨"eIri0"⟩, ⟨["eIri0", "nick_name0"], ["nick_name0"]⟩) := rfl
  have hhyphen : c.Grants .exampleOrg {} (0, .key "nick-name") ⟨"nick_name0"⟩ := by
    have hkeys : nicknamedPerson.selectedKeys = ["@id"] ++ "nick-name" :: ["nick_name"] := by
      decide
    exact .entity hentities rfl (.selected hsubject hkeys (by decide) nofun (by decide) rfl rfl rfl)
  have hunderscore : c.Grants .exampleOrg {} (0, .key "nick_name") ⟨"nick_name0"⟩ := by
    have hkeys : nicknamedPerson.selectedKeys = ["@id", "nick-name"] ++ "nick_name" :: [] := by
      decide
    exact .entity hentities rfl (.selected hsubject hkeys (by decide) nofun (by decide) rfl rfl rfl)
  refine ⟨hhyphen, hunderscore, ⟨"nick_name0", .head _, by decide⟩, fun h => ?_, _, _, _, rfl,
    rfl, by decide +kernel, rfl⟩
  exact absurd (h _ _ _ _ hhyphen hunderscore rfl rfl) (by decide)

end Collection

end ObjectGraph
