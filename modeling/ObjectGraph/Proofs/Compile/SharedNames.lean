import ObjectGraph.Proofs.Compile.Collisions
import ObjectGraph.Proofs.Compile.Conditions
import ObjectGraph.Proofs.Variable.Names
import ObjectGraph.Proofs.Variable.Pairs

/-!
# One variable for a name

Wherever a user writes a name behind a question mark, the compilers write the same
variable, that of `varOf`: as the subject where the identity has the name, in the triple
of a key that has it, in the triples of a computed key, and for a selected key that is
none of the schema but a name that the collection writes (`Fragment.Spells`,
`compileParts_spells`).  An order is the exception: it takes the name as it stands, which
is the same variable for a name of letters, digits and underscores only
(`orderVar?_eq_varOf_iff`).

The variables that fragments keep for reading results have proper names
(`Fragment.WellNamed`).
-/

namespace ObjectGraph

open Allocator (IsName nameOf varOf)
open Sparql (Var Term Triple Expression Pattern)

/-! ## Fragments -/

/-- The variables by which results are read have names. -/
structure Fragment.WellNamed (f : Fragment) : Prop where
  subject : ∀ x, f.subject = .var x → IsName x.name
  selected : ∀ entry ∈ f.props.entries, IsName entry.2.name
  hidden : ∀ entry ∈ f.hidden.entries, IsName entry.2.name

namespace Fragment.WellNamed

variable {f f' : Fragment}

/-- Only the subject and the variables of keys have to have names. -/
theorem of_eq (h : f.WellNamed) (hsubject : f'.subject = f.subject) (hprops : f'.props = f.props)
    (hhidden : f'.hidden = f.hidden) : f'.WellNamed where
  subject := hsubject ▸ h.subject
  selected := hprops ▸ h.selected
  hidden := hhidden ▸ h.hidden

/-- A variable with a name may be selected. -/
theorem of_selected (h : f.WellNamed) {key : String} {x : Var} (hx : IsName x.name)
    (hsubject : f'.subject = f.subject) (hprops : f'.props = f.props.insert key x)
    (hhidden : f'.hidden = f.hidden) : f'.WellNamed where
  subject := hsubject ▸ h.subject
  selected entry hentry := by
    rw [hprops] at hentry
    rcases KeyVars.mem_insert hentry with hold | rfl
    · exact h.selected entry hold
    · exact hx
  hidden := hhidden ▸ h.hidden

/-- A variable with a name may be hidden. -/
theorem of_hidden (h : f.WellNamed) {key : String} {x : Var} (hx : IsName x.name)
    (hsubject : f'.subject = f.subject) (hprops : f'.props = f.props)
    (hhidden : f'.hidden = f.hidden.insert key x) : f'.WellNamed where
  subject := hsubject ▸ h.subject
  selected := hprops ▸ h.selected
  hidden entry hentry := by
    rw [hhidden] at hentry
    rcases KeyVars.mem_insert hentry with hold | rfl
    · exact h.hidden entry hold
    · exact hx

end Fragment.WellNamed

/-- The variable of a key has a name. -/
theorem Draft.isName_varFor (e : Entity) (key : String) (c : Option Condition) (a : Allocator) :
    IsName (varFor e key c a).1.name := by
  unfold varFor
  split
  · exact Allocator.isName_nameOf _
  · exact a.isName_join _

/-- Every compiled fragment is well named. -/
theorem Entity.compile_wellNamed {ns : Namespaces} {config : Config} {options : CompileOptions}
    {e : Entity} {a a' : Allocator} {f : Fragment}
    (h : e.compile ns config options a = .ok (f, a')) : f.WellNamed := by
  have hopen : ∀ subject b, e.subjectTerm ns a = .ok (subject, b) →
      (Draft.opening ns e subject b).fragment.WellNamed := by
    intro subject b hs
    have hsubject : ∀ x, subject = .var x → IsName x.name := by
      rintro x rfl
      rcases subjectTerm_cases hs with ⟨_, _, hx, _⟩ | ⟨_, name, _, hx, _⟩ | ⟨_, _, hx, _⟩
      · cases hx
      · cases hx
        exact Allocator.isName_nameOf name
      · cases hx
        exact a.isName_join _
    have hstart : (Draft.start ns e subject b).fragment.WellNamed :=
      ⟨hsubject, by simp [Draft.start, KeyVars.empty], by simp [Draft.start, KeyVars.empty]⟩
    unfold Draft.opening Draft.addIdentity
    split
    · exact hstart.of_eq rfl rfl rfl
    · exact hstart
  have htype : ∀ d d', d.fragment.WellNamed → Draft.Types ns e d d' → d'.fragment.WellNamed := by
    intro d d' hd hstep
    cases hstep with
    | @resolved type b _ htype =>
        refine hd.of_selected ?_ rfl rfl rfl
        rw [← congrArg (·.1.typeVar) htype, MostSpecificType.compile_typeVar]
        exact Allocator.isName_join _ _
    | exact => exact hd.of_eq rfl rfl rfl
    | untyped => exact hd
  have hselect : ∀ key ∈ e.selectedKeys, ∀ d d', d.fragment.WellNamed →
      Draft.Selects ns options e key d d' → d'.fragment.WellNamed := by
    intro key _ d d' hd hstep
    cases hstep with
    | identity _ hsubject => exact hd.of_selected (hd.subject _ hsubject) rfl rfl rfl
    | borrowed => exact hd.of_selected (Allocator.isName_nameOf key) rfl rfl rfl
    | property => exact hd.of_selected (Draft.isName_varFor e key _ _) rfl rfl rfl
    | deferred => exact hd.of_eq rfl rfl rfl
    | pinned | type | computed | unknown | unmapped => exact hd
  have hrestrict : ∀ entry ∈ e.conditions, ∀ d d', d.fragment.WellNamed →
      Draft.Restricts ns config e entry.1 d entry.2 d' → d'.fragment.WellNamed := by
    rintro ⟨key, c⟩ _ d d' hd hstep
    cases hstep with
    | computed | existence => exact hd.of_eq rfl rfl rfl
    | hidden => exact hd.of_hidden (Draft.isName_varFor e key _ _) rfl rfl rfl
    | keyword | selected | unmapped => exact hd
  obtain ⟨d, hd, rfl, -⟩ :=
    compile_draft (fun d => d.fragment.WellNamed) hopen htype hselect hrestrict h
  exact hd.of_eq rfl rfl rfl

/-! ## Computed keys -/

/-- A position of a triple of a computed key: a name is its variable, all else an IRI. -/
def BindTriple.position (ns : Namespaces) (s : String) : Term :=
  match Sparql.sharedName? s with
  | some name => .var (varOf name)
  | none => .iri (ns.expand s)

/-- A predicate of a triple of a computed key. -/
def BindTriple.relation (ns : Namespaces) (s : String) : Sparql.Predicate :=
  match Sparql.sharedName? s with
  | some name => .var (varOf name)
  | none => .iri (ns.expand s)

/-- A triple of a computed key as a pattern. -/
def BindTriple.pattern (ns : Namespaces) (t : BindTriple) : Triple :=
  ⟨position ns t.subject, relation ns t.predicate, position ns t.object⟩

/-- The triples of a computed key do not depend on the names in use. -/
theorem Draft.bindTriples_eq (ns : Namespaces) (triples : List BindTriple) (a : Allocator) :
    (bindTriples ns triples a).1 = triples.map (BindTriple.pattern ns) := by
  have hterm : ∀ s b, (bindTerm ns s b).1 = BindTriple.position ns s := by
    intro s b
    unfold bindTerm BindTriple.position
    cases Sparql.sharedName? s <;> rfl
  have hpredicate : ∀ s b, (bindPredicate ns s b).1 = BindTriple.relation ns s := by
    intro s b
    unfold bindPredicate BindTriple.relation
    cases Sparql.sharedName? s <;> rfl
  induction triples generalizing a with
  | nil => rfl
  | cons t rest ih =>
      unfold bindTriples
      dsimp only
      rw [ih, hterm, hpredicate, hterm]
      rfl

/-- The test of a computed key. -/
def BindRelation.test (relation : BindRelation) (ns : Namespaces) (triples : List BindTriple) :
    Expression :=
  let group := [Pattern.triples (triples.map (BindTriple.pattern ns))]
  match relation with
  | .exist => .exist group
  | .notExist => .notExist group

/-- A computed key has a test, a variable and a triple that carries it in a graph. -/
theorem Draft.addComputed_fragment (ns : Namespaces) (config : Config) (e : Entity)
    (key : String) (relation : BindRelation) (triples : List BindTriple) (d : Draft) :
    (addComputed ns config e key relation triples d).fragment =
      let x := (d.alloc.join (key ++ toString e.index)).1
      { d.fragment with
        binds := d.fragment.binds ++ [(relation.test ns triples, x)]
        bindTemplate :=
          d.fragment.bindTemplate ++ [⟨d.fragment.subject, .iri (config.localIri key), .var x⟩]
        bindVars := d.fragment.bindVars.insert key x } := by
  unfold addComputed
  dsimp only
  rw [bindTriples_eq]
  cases relation <;> rfl

/-- A computed key is bound to its test. -/
theorem Draft.addComputed_binds (ns : Namespaces) (config : Config) (e : Entity) (key : String)
    (relation : BindRelation) (triples : List BindTriple) (d : Draft) :
    (addComputed ns config e key relation triples d).fragment.binds = d.fragment.binds ++
      [(relation.test ns triples, (d.alloc.join (key ++ toString e.index)).1)] := by
  rw [addComputed_fragment]

/-! ## Shared names -/

/-- A name that is shared stays so. -/
theorem Lasting.memShared (n : String) : Lasting fun a => n ∈ a.shared where
  fresh _ _ h := h
  share _ _ h := List.mem_cons_of_mem _ h

namespace Entity

/-- The name of the variable of a property, should it be a shared one. -/
def propertyName (e : Entity) (key : String) : Option Condition → String
  | some (.shared name) => nameOf name
  | _ => nameOf (key ++ toString e.index)

/-- The name of the variable of a selected key, should it be a shared one. -/
def sharedNameOf (e : Entity) (key : String) : String :=
  if key = "@type" then nameOf ("type" ++ toString e.index)
  else if e.schema.property? key = none then nameOf key
  else e.propertyName key (e.condition? key)

/-- A key has the shared name that it always has, or no shared one. -/
def Takes (W : String → Prop) (e : Entity) (key : String) (x : Var) : Prop :=
  W x.name ∨ W (e.sharedNameOf key) → x.name = e.sharedNameOf key

end Entity

namespace Draft

/-- The selected keys have shared names for good, none of them is computed, and the
names in use are those that were chosen and new ones. -/
structure Steady (W : String → Prop) (e : Entity) (d : Draft) : Prop where
  apart : Apart W (Kept (fun _ _ => False) 0 d.fragment.Carries) d.alloc
  shared : ∀ n, W n → n ∈ d.alloc.shared
  identity : ∀ x, ("@id", x) ∈ d.fragment.props.entries → d.fragment.subject = .var x
  takes : ∀ key x, key ≠ "@id" → (key, x) ∈ d.fragment.props.entries → e.Takes W key x
  uncomputed : ∀ key ∈ d.fragment.props.keys, Schema.isKeyword key = false →
    (e.condition? key).any Condition.isComputed = false

/-- Shared variables stay those of selected keys, and nothing is taken back. -/
structure Keeps (W : String → Prop) (d d' : Draft) : Prop where
  grown : d.fragment.Extends d'.fragment
  names : ∀ x, W x.name → x ∈ d.fragment.props.vars → x ∈ d'.fragment.props.vars

variable {W : String → Prop} {ns : Namespaces} {config : Config} {options : CompileOptions}
  {e : Entity} {a : Allocator} {d d' : Draft} {key : String} {x : Var}

/-- All later steps keep what a draft keeps. -/
theorem builds_keeps (W : String → Prop) : Builds (Keeps W) :=
  ⟨fun d => ⟨.refl d.fragment, fun _ _ h => h⟩, fun _ _ _ h h' =>
    ⟨h.grown.trans h'.grown, fun x hx hmem => h'.names x hx (h.names x hx hmem)⟩⟩

/-- A name that is joined is the shared one or new. -/
theorem name_of_join (ha : Ready W a) (hshared : ∀ n, W n → n ∈ a.shared) (s : String)
    (h : W (a.join s).1.name ∨ W (nameOf s)) : (a.join s).1.name = nameOf s := by
  rcases a.join_cases s with ⟨-, heq⟩ | ⟨hfree, heq⟩
  · rw [heq]
  · rcases h with h | h
    · rw [heq] at h
      exact (a.fresh_not_mem _ (ha.used _ h)).elim
    · exact (hfree (hshared _ h)).elim

/-- The variable of a property has its shared name or a new one. -/
theorem name_of_varFor (ha : Ready W a) (hshared : ∀ n, W n → n ∈ a.shared)
    (c : Option Condition) (h : W (varFor e key c a).1.name ∨ W (e.propertyName key c)) :
    (varFor e key c a).1.name = e.propertyName key c := by
  have hjoin := name_of_join ha hshared (key ++ toString e.index)
  cases c with
  | none => exact hjoin h
  | some c =>
      cases c with
      | shared name => rfl
      | value | related | computed => exact hjoin h

namespace Steady

/-- A step that leaves the selected keys as they are. -/
theorem keep (h : Steady W e d)
    (hapart : Apart W (Kept (fun _ _ => False) 0 d'.fragment.Carries) d'.alloc)
    (hshared : ∀ n, W n → n ∈ d'.alloc.shared) (hextends : d.fragment.Extends d'.fragment)
    (hprops : d'.fragment.props = d.fragment.props) : Steady W e d' ∧ Keeps W d d' :=
  ⟨⟨hapart, hshared, by rw [hprops, hextends.subject]; exact h.identity,
    by rw [hprops]; exact h.takes, by rw [hprops]; exact h.uncomputed⟩,
    hextends, by rw [hprops]; exact fun _ _ hmem => hmem⟩

/-- A step that enters a selected key with its shared name or none. -/
theorem enter (h : Steady W e d)
    (hapart : Apart W (Kept (fun _ _ => False) 0 d'.fragment.Carries) d'.alloc)
    (hshared : ∀ n, W n → n ∈ d'.alloc.shared) (hextends : d.fragment.Extends d'.fragment)
    (hprops : d'.fragment.props = d.fragment.props.insert key x)
    (hidentity : key = "@id" → d.fragment.subject = .var x) (htakes : key ≠ "@id" → e.Takes W key x)
    (hcomputed : Schema.isKeyword key = false →
      (e.condition? key).any Condition.isComputed = false) :
    Steady W e d' ∧ Keeps W d d' := by
  refine ⟨⟨hapart, hshared, ?identity, ?takes, ?uncomputed⟩, hextends, ?kept⟩
  case identity =>
    intro y hy
    rw [hprops] at hy
    rw [hextends.subject]
    rcases KeyVars.mem_insert hy with hold | hnew
    · exact h.identity y hold
    · obtain ⟨hkey, rfl⟩ := Prod.mk.inj hnew
      exact hidentity hkey.symm
  case takes =>
    intro k y hk hy
    rw [hprops] at hy
    rcases KeyVars.mem_insert hy with hold | hnew
    · exact h.takes k y hk hold
    · obtain ⟨rfl, rfl⟩ := Prod.mk.inj hnew
      exact htakes hk
  case uncomputed =>
    intro k hk
    rw [hprops] at hk
    rcases KeyVars.mem_keys_insert hk with hold | rfl
    · exact h.uncomputed k hold
    · exact hcomputed
  case kept =>
    intro y hW hy
    rw [hprops]
    refine KeyVars.mem_vars_insert hy fun hsame => ?_
    -- the key had a shared name, and what it gets is that name again
    by_cases hkey : key = "@id"
    · subst hkey
      exact Term.var.inj ((h.identity y hsame).symm.trans (hidentity rfl))
    · have hold : y.name = e.sharedNameOf key := h.takes key y hkey hsame (.inl hW)
      have hnew : x.name = e.sharedNameOf key := htakes hkey (.inr (hold ▸ hW))
      exact congrArg Var.mk (hold.trans hnew.symm)

/-- An entity starts out with the chosen names shared. -/
theorem opening {subject : Term} {b : Allocator} (ha : Ready W a)
    (hshared : ∀ n, W n → n ∈ a.shared) (hwithin : ∀ entry ∈ e.conditions, entry.2.Within W)
    (hs : e.subjectTerm ns a = .ok (subject, b)) : Steady W e (Draft.opening ns e subject b) := by
  have hstart : Apart W (fun (_ : Nat × Slot) _ => False) a := .nothing ha
  have hprops : (Draft.opening ns e subject b).fragment.props = .empty := by
    unfold Draft.opening addIdentity
    split <;> rfl
  refine ⟨?_, ?_, by simp [hprops, KeyVars.empty], by simp [hprops, KeyVars.empty], ?_⟩
  · rw [opening_alloc]
    exact hstart.opening hwithin hs
  · rw [opening_alloc]
    exact fun n hn => (Lasting.memShared n).subjectTerm hs (hshared n hn)
  · simp [hprops, KeyVars.empty, KeyVars.keys]

/-- A type takes none of the shared names. -/
theorem types (h : Steady W e d) (hstep : Types ns e d d') : Steady W e d' ∧ Keeps W d d' := by
  have hapart := h.apart.types hstep
  have hshared : ∀ n, W n → n ∈ d'.alloc.shared := fun n hn =>
    (Lasting.memShared n).fresh.types hstep (h.shared n hn)
  have hextends := hstep.extends
  cases hstep with
  | exact | untyped => exact h.keep hapart hshared hextends rfl
  | @resolved type b _ htype =>
      refine h.enter hapart hshared hextends rfl (by simp) ?_ (by simp [Schema.isKeyword])
      intro _ hname
      have hvar : type.typeVar = (d.alloc.join ("type" ++ toString e.index)).1 := by
        rw [← congrArg (·.1.typeVar) htype, MostSpecificType.compile_typeVar]
      have htarget : e.sharedNameOf "@type" = nameOf ("type" ++ toString e.index) := by
        simp [Entity.sharedNameOf]
      rw [hvar, htarget] at hname ⊢
      exact name_of_join h.apart.ready h.shared _ hname

/-- A selected key takes the shared name that it always has, if any. -/
theorem selects (h : Steady W e d) (hwithin : ∀ entry ∈ e.conditions, entry.2.Within W)
    (hstep : Selects ns options e key d d') : Steady W e d' ∧ Keeps W d d' := by
  have hapart := h.apart.selects hwithin hstep
  have hshared : ∀ n, W n → n ∈ d'.alloc.shared := fun n hn =>
    (Lasting.memShared n).selects hstep (h.shared n hn)
  have hextends := hstep.extends
  cases hstep with
  | pinned | type | computed | unknown | deferred | unmapped =>
      exact h.keep hapart hshared hextends rfl
  | identity _ hsubject =>
      exact h.enter hapart hshared hextends rfl (fun _ => hsubject) (fun hne => (hne rfl).elim)
        (by simp [Schema.isKeyword])
  | borrowed hkey hunknown _ hcomputed =>
      have htype : key ≠ "@type" := by
        rintro rfl
        cases hkey
      refine h.enter hapart hshared hextends rfl ?_ ?_ fun _ => hcomputed
      · rintro rfl
        cases hkey
      · intro _ _
        simp [Entity.sharedNameOf, htype, hunknown, Allocator.share]
  | @property p m hkey hcomputed hproperty =>
      have htype : key ≠ "@type" := by
        rintro rfl
        cases hkey
      refine h.enter hapart hshared hextends rfl ?_ ?_ fun _ => hcomputed
      · rintro rfl
        cases hkey
      · intro _ hname
        simp only [Entity.sharedNameOf, htype, hproperty, if_false, reduceCtorEq] at hname ⊢
        exact name_of_varFor h.apart.ready h.shared _ hname

/-- A condition leaves the selected keys their names. -/
theorem restricts (h : Steady W e d) {c : Condition} (hwithin : c.Within W)
    (hstep : Restricts ns config e key d c d') : Steady W e d' ∧ Keeps W d d' := by
  have hentry : ((key, c) : String × Condition).2.Within W := hwithin
  have hapart := h.apart.restricts hentry hstep
  have hshared : ∀ n, W n → n ∈ d'.alloc.shared := fun n hn =>
    (Lasting.memShared n).restricts hstep (h.shared n hn)
  have hextends := hstep.extends
  cases hstep with
  | keyword | selected | unmapped | computed | existence | hidden =>
      exact h.keep hapart hshared hextends rfl

end Steady

end Draft

/-- The names of `W` are those that are shared, and they are used up. -/
structure Reserves (W : String → Prop) (a : Allocator) : Prop where
  ready : Ready W a
  shared : ∀ n, W n → n ∈ a.shared

/-- Joining a name keeps the reserved ones reserved. -/
theorem Reserves.join {W : String → Prop} {a : Allocator} (h : Reserves W a) (s : String) :
    Reserves W (a.join s).2 where
  ready := (h.ready.draws_join s).ready
  shared n hn := (Lasting.memShared n).fresh.join s (h.shared n hn)

/-- While names are had for good they are reserved. -/
theorem Draft.Steady.reserves {W : String → Prop} {e : Entity} {d : Draft} (h : Steady W e d) :
    Reserves W d.alloc :=
  ⟨h.apart.ready, h.shared⟩

namespace Entity

variable {W : String → Prop} {ns : Namespaces} {config : Config} {options : CompileOptions}
  {e : Entity} {a b : Allocator} {s : Term}

/-- Every draft with some selected keys keeps the written names. -/
theorem selecting_steady (ha : Reserves W a) (hwithin : ∀ entry ∈ e.conditions, entry.2.Within W)
    (hs : e.subjectTerm ns a = .ok (s, b)) {done rest : List String}
    (hkeys : e.selectedKeys = done ++ rest) :
    Draft.Steady W e (e.selecting ns options s b done) := by
  have hopened := Draft.Steady.opening ha.ready ha.shared hwithin hs
  exact selecting_holds (hopened.types (Draft.addType_types ..)).1 hkeys
    fun _ _ _ _ hd hstep => (hd.selects hwithin hstep).1

/-- Every draft with some conditions keeps the written names. -/
theorem restricting_steady (ha : Reserves W a)
    (hwithin : ∀ entry ∈ e.conditions, entry.2.Within W) (hs : e.subjectTerm ns a = .ok (s, b))
    {done rest : List (String × Condition)} (hentries : e.conditions = done ++ rest) :
    Draft.Steady W e (e.restricting ns config options s b done) :=
  restricting_holds (selecting_steady ha hwithin hs (List.append_nil _).symm) hentries
    fun _ hentry _ _ hd hstep => (hd.restricts (hwithin _ hentry) hstep).1

end Entity

/-- One variable for each name that an entity writes: as the subject, in the triple of a
key, in those of a computed key, and among the selected variables. -/
structure Fragment.Spells (ns : Namespaces) (W : String → Prop) (options : CompileOptions)
    (e : Entity) (f : Fragment) : Prop where
  identity : ∀ name, e.condition? "@id" = some (.shared name) → f.subject = .var (varOf name)
  property : ∀ key name m, Schema.isKeyword key = false →
    e.condition? key = some (.shared name) → e.mapping? ns key = some m →
    (key ∈ e.selectedKeys → e.schema.hasProperty key = true) →
    m.triple f.subject (.var (varOf name)) ∈ f.mandatory
  computed : ∀ key relation triples, Schema.isKeyword key = false →
    e.condition? key = some (.computed relation triples) →
    ∃ x, (relation.test ns triples, x) ∈ f.binds
  /-- A selected key with a name has the variable, or another selected key has it. -/
  asked : ∀ key ∈ e.selectedKeys, ∀ name p m, Schema.isKeyword key = false →
    e.condition? key = some (.shared name) → e.schema.property? key = some p →
    (p.kind.isArray && options.deferArrays) = false → e.mapping? ns key = some m →
    varOf name ∈ f.props.vars
  /-- A selected name that is no key of the schema is a variable that others share. -/
  selected : ∀ key ∈ e.selectedKeys, Schema.isKeyword key = false →
    e.schema.property? key = none → (e.condition? key).any Condition.isComputed = false →
    W (nameOf key) → varOf key ∈ f.props.vars
  /-- No other variable stands for a selected key with a name. -/
  entries : ∀ key name x, Schema.isKeyword key = false → e.schema.hasProperty key = true →
    e.condition? key = some (.shared name) → (key, x) ∈ f.props.entries → x = varOf name

namespace Entity

variable {W : String → Prop} {ns : Namespaces} {config : Config} {options : CompileOptions}
  {e : Entity} {a a' : Allocator} {f : Fragment}

/-- The subject of an entity with a shared identity is the variable of its name. -/
theorem subject_of_shared (h : e.compile ns config options a = .ok (f, a')) {name : String}
    (hc : e.condition? "@id" = some (.shared name)) : f.subject = .var (varOf name) := by
  have hexpressed := compile_identity h hc .named
  generalize hid : "@id" = key at hexpressed
  cases hexpressed with
  | named hsubject => exact hsubject
  | compared hkey | shared hkey => subst hid; cases hkey

/-- A shared key has its triple with the variable of its name. -/
theorem mandatory_of_shared (ha : Reserves W a) (h : e.compile ns config options a = .ok (f, a'))
    {key name : String} {m : Mapping} (hkey : Schema.isKeyword key = false)
    (hc : e.condition? key = some (.shared name)) (hmapping : e.mapping? ns key = some m)
    (hknown : key ∈ e.selectedKeys → e.schema.hasProperty key = true) :
    m.triple f.subject (.var (varOf name)) ∈ f.mandatory := by
  cases compile_property (fun n hn => ha.ready.used n (ha.ready.shared n hn)) h hkey hc
      (.key hkey hmapping rfl hknown (by simp [Condition.comparison?])) with
  | named => cases hkey
  | compared _ _ hcomparison => cases hcomparison
  | shared _ hmapping' hmandatory =>
      obtain rfl := Option.some.inj (hmapping.symm.trans hmapping')
      exact hmandatory

namespace Walk

variable {last : Draft} {key name : String}
  (hwalk : e.Walk ns config options a (Draft.Steady W e) (Draft.Keeps W) last)

include hwalk

/-- A computed key is bound to its test. -/
theorem exists_binds {relation : BindRelation} {triples : List BindTriple}
    (hkey : Schema.isKeyword key = false)
    (hc : e.condition? key = some (.computed relation triples)) :
    ∃ x, (relation.test ns triples, x) ∈ last.fragment.binds := by
  obtain ⟨d, d', hd, hstep, hkeeps⟩ := hwalk.conditions _ (mem_of_condition? hc)
  cases hstep with
  | keyword hword =>
      rw [hkey] at hword
      cases hword
  | unmapped hcomputed => cases hcomputed
  | hidden _ _ hnarrows => cases hnarrows
  | selected hselected =>
      -- a selected key is none of those that are computed
      have hmem : key ∈ d.fragment.props.keys := Decidable.not_not.mp fun hnot => by
        rw [KeyVars.contains, Assoc.contains, Assoc.get?_eq_none_iff.mpr hnot] at hselected
        cases hselected
      have hcomputed := hd.uncomputed key hmem hkey
      rw [hc] at hcomputed
      cases hcomputed
  | computed =>
      refine ⟨(d.alloc.join (key ++ toString e.index)).1, hkeeps.grown.binds ?_⟩
      rw [Draft.addComputed_binds]
      exact List.mem_append_right _ List.mem_cons_self

/-- A shared key that is selected and not deferred has the variable of its name among those
that are selected. -/
theorem mem_vars_of_shared {p : PropertySchema} {m : Mapping} (hname : W (nameOf name))
    (hasked : key ∈ e.selectedKeys) (hkey : Schema.isKeyword key = false)
    (hc : e.condition? key = some (.shared name)) (hproperty : e.schema.property? key = some p)
    (hnow : (p.kind.isArray && options.deferArrays) = false)
    (hmapping : e.mapping? ns key = some m) : varOf name ∈ last.fragment.props.vars := by
  obtain ⟨d, d', hd, hstep, hkeeps⟩ := hwalk.selected key hasked
  refine hkeeps.names _ hname ?_
  cases hstep with
  | identity hid | pinned hid | type hid => subst hid; cases hkey
  | computed _ hcomputed =>
      rw [hc] at hcomputed
      cases hcomputed
  | borrowed _ hunknown | unknown _ hunknown =>
      rw [hproperty] at hunknown
      cases hunknown
  | deferred _ hproperty' harray hdefer =>
      obtain rfl := Option.some.inj (hproperty.symm.trans hproperty')
      rw [harray, hdefer] at hnow
      cases hnow
  | unmapped _ _ hunmapped =>
      rw [hmapping] at hunmapped
      cases hunmapped
  | property =>
      refine List.mem_map.mpr ⟨(key, varOf name), ?_, rfl⟩
      simp only [Draft.addProperty, hc, Draft.varFor]
      exact Assoc.mem_insert_self _ _ _

/-- A selected name that is no key of the schema is among the variables that are selected. -/
theorem mem_vars_of_unknown (hname : W (nameOf key)) (hasked : key ∈ e.selectedKeys)
    (hkey : Schema.isKeyword key = false) (hunknown : e.schema.property? key = none)
    (hcomputed : (e.condition? key).any Condition.isComputed = false) :
    varOf key ∈ last.fragment.props.vars := by
  obtain ⟨d, d', hd, hstep, hkeeps⟩ := hwalk.selected key hasked
  refine hkeeps.names _ hname ?_
  cases hstep with
  | identity hid | pinned hid | type hid => subst hid; cases hkey
  | computed _ hcomputed' =>
      rw [hcomputed] at hcomputed'
      cases hcomputed'
  | borrowed => exact List.mem_map.mpr ⟨(key, varOf key), Assoc.mem_insert_self _ _ _, rfl⟩
  | unknown _ _ hfree =>
      have hmem : nameOf key ∈ d.alloc.shared := hd.shared _ hname
      simp [Allocator.isShared, hmem] at hfree
  | deferred _ hproperty | unmapped _ hproperty | property _ _ hproperty =>
      rw [hunknown] at hproperty
      cases hproperty

/-- The variable under which a shared key is selected is that of its name. -/
theorem eq_varOf_of_entry {x : Var} (hname : W (nameOf name))
    (hkey : Schema.isKeyword key = false) (hknown : e.schema.hasProperty key = true)
    (hc : e.condition? key = some (.shared name))
    (hmem : (key, x) ∈ last.fragment.props.entries) : x = varOf name := by
  have hid : key ≠ "@id" := by
    rintro rfl
    cases hkey
  have htype : key ≠ "@type" := by
    rintro rfl
    cases hkey
  have hproperty : e.schema.property? key ≠ none := by
    intro hnone
    rw [Schema.hasProperty, Assoc.contains, show Assoc.get? _ _ = none from hnone] at hknown
    cases hknown
  have hshared : e.sharedNameOf key = nameOf name := by
    simp [sharedNameOf, htype, hproperty, hc, propertyName]
  have htaken : x.name = e.sharedNameOf key :=
    hwalk.kept.takes key x hid hmem (.inr (hshared ▸ hname))
  exact congrArg Var.mk (htaken.trans hshared)

end Walk

/-- **One entity.**  The names that an entity writes are spelled alike. -/
theorem compile_spells (ha : Reserves W a)
    (hwithin : ∀ entry ∈ e.conditions, entry.2.Within W)
    (h : e.compile ns config options a = .ok (f, a')) : f.Spells ns W options e := by
  have hnames : ∀ key name, e.condition? key = some (.shared name) → W (nameOf name) :=
    fun key name hc => hwithin _ (mem_of_condition? hc) name (by simp [Condition.writtenNames])
  obtain ⟨last, hwalk, rfl, -⟩ := compile_walk (Draft.Steady W e)
    (Draft.builds_keeps W) (fun _ _ hs => .opening ha.ready ha.shared hwithin hs)
    (fun _ _ hd hstep => hd.types hstep) (fun _ _ _ _ hd hstep => hd.selects hwithin hstep)
    (fun entry hentry _ _ hd hstep => hd.restricts (hwithin entry hentry) hstep) h
  exact
    { identity := fun _ hc => subject_of_shared h hc
      property := fun _ _ _ hkey hc hmapping hknown =>
        mandatory_of_shared ha h hkey hc hmapping hknown
      computed := fun _ _ _ hkey hc => hwalk.exists_binds hkey hc
      asked := fun key hasked name _ _ hkey hc hproperty hnow hmapping =>
        hwalk.mem_vars_of_shared (hnames key name hc) hasked hkey hc hproperty hnow hmapping
      selected := fun _ hasked hkey hunknown hcomputed hname =>
        hwalk.mem_vars_of_unknown hname hasked hkey hunknown hcomputed
      entries := fun key name _ hkey hknown hc hmem =>
        hwalk.eq_varOf_of_entry (hnames key name hc) hkey hknown hc hmem }

end Entity

namespace Collection

variable {ns : Namespaces} {config : Config} {options : CompileOptions} {c : Collection}
  {parts : List Part}

/-- Before any entity is compiled, the names that a collection writes are shared. -/
theorem reserves_shareAll (c : Collection) :
    Reserves c.Chooses (Entity.shareAll c.entities .empty) where
  ready := c.ready_shareAll
  shared n hn := by
    rw [Entity.shareAll_eq]
    exact (Allocator.mem_shareEach _ _ n).1.mpr (.inr hn)

/-- The conditions of an entity write names of its collection only. -/
theorem within_chooses {e : Entity} (he : e ∈ c.entities) :
    ∀ entry ∈ e.conditions, entry.2.Within c.Chooses := by
  intro entry hentry name hname
  refine ⟨name, List.mem_flatMap.mpr ⟨e, he, ?_⟩, rfl⟩
  exact List.mem_flatMap.mpr ⟨entry, hentry, hname⟩

/-- Compiling an entity keeps the written names. -/
theorem reserves_compile {options : CompileOptions} {e : Entity} (he : e ∈ c.entities)
    {a a' : Allocator} {f : Fragment} (ha : Reserves c.Chooses a)
    (h : e.compile ns config options a = .ok (f, a')) : Reserves c.Chooses a' := by
  have hstart : Apart c.Chooses (fun (_ : Nat × Slot) _ => False) a := .nothing ha.ready
  exact ⟨(hstart.compile (within_chooses he) h 0).ready,
    fun n hn => (Lasting.memShared n).compile h (ha.shared n hn)⟩

/-- Each entity is compiled from names among which the written ones are shared, and its
conditions write no others. -/
theorem compileParts_ready (h : c.compileParts ns config options = .ok parts) {p : Part}
    (hp : p ∈ parts) :
    ∃ a a', Ready c.Chooses a ∧ (∀ n, c.Chooses n → n ∈ a.shared) ∧
      (∀ entry ∈ p.entity.conditions, entry.2.Within c.Chooses) ∧
      p.entity.compile ns config options a = .ok (p.fragment, a') := by
  obtain ⟨i, hi⟩ := List.mem_iff_getElem?.mp hp
  obtain ⟨hentity, a, a', ha, hcompile⟩ := Entity.compileEach_at (Reserves c.Chooses)
    (fun e he a f a' ha hcompile => reserves_compile he ha hcompile) c.reserves_shareAll h hi
  exact ⟨a, a', ha.ready, ha.shared, within_chooses (List.mem_of_getElem? hentity), hcompile⟩

/-- **All entities.**  The names that a collection writes are spelled alike in all its
fragments. -/
theorem compileParts_spells (h : c.compileParts ns config options = .ok parts) :
    ∀ p ∈ parts, p.fragment.Spells ns c.Chooses options p.entity := by
  intro p hp
  obtain ⟨a, a', ha, hshared, hwithin, hcompile⟩ := compileParts_ready h hp
  exact Entity.compile_spells ⟨ha, hshared⟩ hwithin hcompile

/-- The fragments of a collection are well named. -/
theorem compileParts_wellNamed (h : c.compileParts ns config options = .ok parts) :
    ∀ p ∈ parts, p.fragment.WellNamed := by
  intro p hp
  obtain ⟨_, _, hcompile⟩ := Entity.compileEach_part h p hp
  exact Entity.compile_wellNamed hcompile

/-- An order by a name takes it as it stands, which is the variable of the name exactly
if that is left of it. -/
theorem orderVar?_eq_varOf_iff (fragments : List Fragment) {key name : String}
    (hkey : Sparql.sharedName? key = some name) :
    orderVar? fragments key = some (varOf name) ↔ IsName (Var.ofText name).name := by
  unfold orderVar?
  rw [hkey, ← Allocator.nameOf_eq_self_iff, Allocator.nameOf_ofText, Option.some.injEq, eq_comm]
  exact ⟨congrArg Var.name, congrArg Var.mk⟩

end Collection

end ObjectGraph
