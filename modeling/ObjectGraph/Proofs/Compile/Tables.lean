import Mathlib.Data.List.Nodup
import ObjectGraph.Proofs.Compile.Slots
import ObjectGraph.Proofs.Compile.Template
import ObjectGraph.Proofs.Decode.Identity

/-!
# Fragments whose solutions are tables

An entity is tabular if nothing ties it to others: its subject is free, no variable
is shared, no key is computed and no key is an array.  Then every selected key that
can be read has a variable of its own, in the order of the selection, and the
fragment states the class of the subject and at most one more triple for each
predicate (`Entity.Tabular.compile`).

The invariant is `Tables`; adding a key or a condition keeps it because a name that
is joined is free as long as no name is shared.
-/

namespace ObjectGraph

open Sparql (Var Term Triple)

/-- A new key with a new variable comes last. -/
theorem KeyVars.insert_of_not_mem {m : KeyVars} {key : String} {x : Var} (hkey : key ∉ m.keys)
    (hvar : ∀ entry ∈ m.entries, entry.2 ≠ x) :
    (m.insert key x).entries = m.entries ++ [(key, x)] := by
  have hkept : m.entries.filter (fun e => e.1 == key || e.2 != x) = m.entries :=
    List.filter_eq_self.mpr fun entry hentry => by simp [hvar entry hentry]
  rw [entries_insert, hkept]
  exact Assoc.insert_of_not_mem hkey x

/-- As long as no name is shared, a name that is joined is fresh. -/
theorem Allocator.join_of_unshared {a : Allocator} (h : a.shared = []) (n : String) :
    a.join n = a.fresh (nameOf n) := by
  rcases a.join_cases n with ⟨hmem, -⟩ | ⟨-, heq⟩
  · rw [h] at hmem
    cases hmem
  · exact heq

namespace Entity

/-- The predicate of a key that a row can hold a value of. -/
def reads? (ns : Namespaces) (e : Entity) (key : String) : Option Mapping :=
  if Schema.isKeyword key then none
  else
    match e.schema.property? key with
    | some _ => e.mapping? ns key
    | none => none

/-- Whether a selected key has a variable. -/
def isRead (ns : Namespaces) (e : Entity) (key : String) : Bool :=
  key == "@id" || (e.reads? ns key).isSome

/-- A key is read if it is a property of the schema, under the predicate of its mapping. -/
theorem reads?_eq_some {ns : Namespaces} {e : Entity} {key : String} {m : Mapping} :
    e.reads? ns key = some m ↔
      Schema.isKeyword key = false ∧ (∃ p, e.schema.property? key = some p) ∧
        e.mapping? ns key = some m := by
  unfold reads?
  cases Schema.isKeyword key <;> cases e.schema.property? key <;> simp

/-- An entity that nothing ties to others and whose keys have single values. -/
structure Tabular (ns : Namespaces) (e : Entity) : Prop where
  unresolved : e.resolveType = false
  unpinned : ∀ v, ("@id", Condition.value v) ∉ e.conditions
  anonymous : e.dataText? "@id" = none
  unshared : ∀ entry ∈ e.conditions, entry.2.sharedName? = none
  uncomputed : ∀ entry ∈ e.conditions, entry.2.isComputed = false
  known : ∀ entry ∈ e.conditions, e.knows entry.1 = true
  conditions : e.conditions.keys.Nodup
  selected : e.selectedKeys.Nodup
  scalar : ∀ key p, Schema.isKeyword key = false → e.schema.property? key = some p →
    p.kind.isArray = false
  distinct : ∀ key key' m m', e.mapping? ns key = some m → e.mapping? ns key' = some m' →
    m.iri = m'.iri → key = key'

end Entity

/-- The triples of a fragment but the one that gives the class. -/
def Fragment.statements (f : Fragment) : List Triple :=
  f.mandatory.tail ++ f.optional

/-- A draft of a tabular entity after some selected keys and some conditions. -/
structure Tables (ns : Namespaces) (e : Entity) (s : Var) (class_ : String)
    (selected conditioned : List String) (d : Draft) : Prop where
  subject : d.fragment.subject = .var s
  unshared : d.alloc.shared = []
  subjectUsed : s.name ∈ d.alloc.used
  used : ∀ entry ∈ d.fragment.props.entries, entry.2.name ∈ d.alloc.used
  keys : d.fragment.props.keys = selected.filter (e.isRead ns)
  apart : ∀ entry ∈ d.fragment.props.entries, entry.2 = s → entry.1 = "@id"
  typing : d.fragment.mandatory = exactType (.var s) class_ :: d.fragment.mandatory.tail
  stated : ∀ t ∈ d.fragment.statements, ∃ key ∈ selected ++ conditioned, ∃ m x,
    e.reads? ns key = some m ∧ t = m.triple (.var s) (.var x)
  functional : (d.fragment.statements.map (·.predicate)).Nodup
  states : ∀ entry ∈ d.fragment.props.entries, entry.1 ≠ "@id" →
    ∃ m, e.reads? ns entry.1 = some m ∧
      m.triple (.var s) (.var entry.2) ∈ d.fragment.statements ∧
      ((e.condition? entry.1).any Condition.narrows = true →
        m.triple (.var s) (.var entry.2) ∈ d.fragment.mandatory)
  uncomputed : d.fragment.bindVars = .empty ∧ d.fragment.bindTemplate = []

namespace Tables

variable {ns : Namespaces} {config : Config} {options : CompileOptions} {e : Entity} {s : Var}
  {class_ key : String} {selected conditioned : List String} {d d' : Draft}

/-- Looking at another condition changes nothing that is said of the others. -/
theorem skip (h : Tables ns e s class_ selected conditioned d) (key : String) :
    Tables ns e s class_ selected (conditioned ++ [key]) d := by
  refine { h with stated := fun t ht => ?_ }
  obtain ⟨k, hk, hread⟩ := h.stated t ht
  exact ⟨k, by rw [← List.append_assoc]; exact List.mem_append_left _ hk, hread⟩

/-- A selected key without a variable changes nothing. -/
theorem pass (h : Tables ns e s class_ selected [] d) (hkey : e.isRead ns key = false) :
    Tables ns e s class_ (selected ++ [key]) [] d := by
  refine { h with keys := ?_, stated := fun t ht => ?_ }
  · rw [h.keys, List.filter_append]
    simp [hkey]
  · obtain ⟨k, hk, hread⟩ := h.stated t ht
    rw [List.append_nil] at hk
    exact ⟨k, by simp [hk], hread⟩

/-- One more triple, for a key that nothing was said of, has a new predicate. -/
theorem functional_cons (h : Tables ns e s class_ selected conditioned d)
    (he : e.Tabular ns) {m : Mapping} {x : Var} (hm : e.reads? ns key = some m)
    (hkey : key ∉ selected ++ conditioned)
    (hperm : d'.fragment.statements.Perm
      (m.triple (.var s) (.var x) :: d.fragment.statements)) :
    (d'.fragment.statements.map (·.predicate)).Nodup := by
  rw [(hperm.map _).nodup_iff, List.map_cons, List.nodup_cons]
  refine ⟨?_, h.functional⟩
  intro hmem
  obtain ⟨t, ht, hpredicate⟩ := List.mem_map.mp hmem
  obtain ⟨k, hk, m', x', hm', rfl⟩ := h.stated t ht
  simp only [Mapping.triple_predicate, Sparql.Predicate.iri.injEq] at hpredicate
  have hsame : k = key :=
    he.distinct k key m' m (Entity.reads?_eq_some.mp hm').2.2
      (Entity.reads?_eq_some.mp hm).2.2 hpredicate
  exact hkey (hsame ▸ hk)

/-- The triples of a draft with one more mandatory triple. -/
theorem statements_mandatory (h : Tables ns e s class_ selected conditioned d) {t : Triple}
    (hmandatory : d'.fragment.mandatory = d.fragment.mandatory ++ [t])
    (hoptional : d'.fragment.optional = d.fragment.optional) :
    d'.fragment.mandatory = exactType (.var s) class_ :: d'.fragment.mandatory.tail ∧
      d'.fragment.statements.Perm (t :: d.fragment.statements) := by
  unfold Fragment.statements
  rw [hmandatory, hoptional, h.typing]
  refine ⟨rfl, ?_⟩
  simp only [List.cons_append, List.tail_cons, List.append_assoc, List.nil_append]
  exact List.perm_middle

/-- The triples of a draft with one more optional triple. -/
theorem statements_optional {t : Triple}
    (hmandatory : d'.fragment.mandatory = d.fragment.mandatory)
    (hoptional : d'.fragment.optional = d.fragment.optional ++ [t]) :
    d'.fragment.statements.Perm (t :: d.fragment.statements) := by
  unfold Fragment.statements
  rw [hmandatory, hoptional, ← List.append_assoc]
  exact List.perm_append_singleton _ _

/-- No name is shared, and some names are in use. -/
def Unshared (names : List String) (a : Allocator) : Prop :=
  a.shared = [] ∧ names ⊆ a.used

/-- Fresh names are not shared. -/
theorem enduring_unshared (names : List String) : Enduring (Unshared names) :=
  fun _ _ ⟨hshared, hused⟩ => ⟨hshared, fun _ hx => List.mem_cons_of_mem _ (hused hx)⟩

/-- Without shared names, the variable of a key was not used before. -/
theorem varFor_spec (he : e.Tabular ns) (key : String) {a : Allocator} (ha : a.shared = [])
    {condition : Option Condition}
    (hcondition : ∀ c, condition = some c → (key, c) ∈ e.conditions) :
    (Draft.varFor e key condition a).1.name ∉ a.used ∧
      Unshared ((Draft.varFor e key condition a).1.name :: a.used)
        (Draft.varFor e key condition a).2 := by
  have hjoin : Draft.varFor e key condition a =
      a.fresh (Allocator.nameOf (key ++ toString e.index)) := by
    unfold Draft.varFor
    split
    next name => cases he.unshared _ (hcondition (.shared name) rfl)
    next => exact Allocator.join_of_unshared ha _
  rw [hjoin]
  exact ⟨Allocator.fresh_not_mem _ _, ha, fun _ hx => hx⟩

/-- The subject of a tabular entity is a variable of its own. -/
theorem exists_subject (he : e.Tabular ns) {a : Allocator} (ha : a.shared = []) :
    ∃ x b, e.subjectTerm ns a = .ok (.var x, b) ∧ b.shared = [] ∧ x.name ∈ b.used := by
  have hfree : ∀ v, e.condition? "@id" ≠ some (.value v) := fun v hv =>
    he.unpinned v (Entity.mem_of_condition? hv)
  have hunshared : ∀ name, e.condition? "@id" ≠ some (.shared name) := by
    intro name hname
    cases he.unshared _ (Entity.mem_of_condition? hname)
  obtain ⟨-, -, hterm⟩ := Entity.subjectTerm_of_data ns hunshared hfree a
  rw [he.anonymous, Allocator.join_of_unshared ha] at hterm
  exact ⟨_, _, hterm, ha, List.mem_cons_self⟩

/-- The draft of the subject and its class. -/
theorem opening (he : e.Tabular ns) (hclass : e.class? ns = some class_) {b : Allocator}
    (hshared : b.shared = []) (hused : s.name ∈ b.used) :
    Tables ns e s class_ [] [] ((Draft.opening ns e (.var s) b).addType ns e) := by
  obtain ⟨halloc, hsubject, hprops, hmandatory, hoptional, hbind⟩ :
      (Draft.opening ns e (.var s) b).alloc = b ∧
      (Draft.opening ns e (.var s) b).fragment.subject = .var s ∧
      (Draft.opening ns e (.var s) b).fragment.props = .empty ∧
      (Draft.opening ns e (.var s) b).fragment.mandatory = [] ∧
      (Draft.opening ns e (.var s) b).fragment.optional = [] ∧
      (Draft.opening ns e (.var s) b).fragment.bindVars = .empty ∧
      (Draft.opening ns e (.var s) b).fragment.bindTemplate = [] := by
    unfold Draft.opening Draft.addIdentity
    split <;> exact ⟨rfl, rfl, rfl, rfl, rfl, rfl, rfl⟩
  generalize Draft.opening ns e (.var s) b = d at *
  have htype : d.addType ns e =
      { d with fragment.mandatory := [exactType (.var s) class_] } := by
    simp [Draft.addType, he.unresolved, hclass, hmandatory, hsubject]
  rw [htype]
  constructor
  case subject => exact hsubject
  case unshared => exact halloc ▸ hshared
  case subjectUsed => exact halloc ▸ hused
  case used | apart | states => simp [hprops, KeyVars.empty]
  case keys => simp [hprops, KeyVars.keys, KeyVars.empty]
  case typing => rfl
  case stated | functional => simp [Fragment.statements, hoptional]
  case uncomputed => exact hbind

/-- Adding a key takes its variable and shares nothing. -/
theorem addProperty_unshared (he : e.Tabular ns) (key : String) (hd : d.alloc.shared = [])
    (m : Mapping) :
    Unshared ((Draft.varFor e key (e.condition? key) d.alloc).1.name :: d.alloc.used)
      (Draft.addProperty ns e key m d).alloc := by
  obtain ⟨-, hvar⟩ := varFor_spec he key hd fun c hc => Entity.mem_of_condition? hc
  rw [Draft.addProperty_alloc]
  unfold Draft.propertyFilter
  cases hc : e.condition? key with
  | none =>
      rw [hc] at hvar
      exact hvar
  | some c =>
      rw [hc] at hvar
      exact (enduring_unshared _).conditionFilter c hvar

/-- Adding a key adds its triple, a mandatory one if a condition narrows the key. -/
theorem addProperty_statements (h : Tables ns e s class_ selected conditioned d)
    {m : Mapping} {x : Var} (hx : (Draft.varFor e key (e.condition? key) d.alloc).1 = x) :
    (Draft.addProperty ns e key m d).fragment.mandatory = exactType (.var s) class_ ::
        (Draft.addProperty ns e key m d).fragment.mandatory.tail ∧
      (Draft.addProperty ns e key m d).fragment.statements.Perm
        (m.triple (.var s) (.var x) :: d.fragment.statements) ∧
      d.fragment.mandatory ⊆ (Draft.addProperty ns e key m d).fragment.mandatory ∧
      ((e.condition? key).any Condition.narrows = true →
        m.triple (.var s) (.var x) ∈ (Draft.addProperty ns e key m d).fragment.mandatory) := by
  have htriple : Draft.propertyTriple e key m d = m.triple (.var s) (.var x) := by
    unfold Draft.propertyTriple
    rw [h.subject, hx]
  have hmandatory := Draft.addProperty_mandatory ns e key m d
  have hoptional := Draft.addProperty_optional ns e key m d
  rw [htriple] at hmandatory hoptional
  cases hmust : Draft.mustHave e key with
  | true =>
      rw [if_pos hmust] at hmandatory hoptional
      obtain ⟨htyping, hperm⟩ := h.statements_mandatory hmandatory hoptional
      exact ⟨htyping, hperm, by simp [hmandatory], fun _ => by simp [hmandatory]⟩
  | false =>
      rw [if_neg (by simp [hmust])] at hmandatory hoptional
      refine ⟨?_, statements_optional hmandatory hoptional, by simp [hmandatory], ?_⟩
      · rw [hmandatory]
        exact h.typing
      · intro hnarrows
        simp [Draft.mustHave, hnarrows] at hmust

/-- A selected key that can be read gets a variable. -/
theorem property (h : Tables ns e s class_ selected [] d) (he : e.Tabular ns)
    (hkey : key ∉ selected) {m : Mapping} (hm : e.reads? ns key = some m) :
    Tables ns e s class_ (selected ++ [key]) [] (Draft.addProperty ns e key m d) := by
  obtain ⟨x, hx⟩ : ∃ x, (Draft.varFor e key (e.condition? key) d.alloc).1 = x := ⟨_, rfl⟩
  obtain ⟨hshared, hused⟩ := addProperty_unshared he key h.unshared m
  obtain ⟨htyping, hperm, hmandatory, hmust⟩ := h.addProperty_statements (m := m) hx
  have hfresh : x.name ∉ d.alloc.used :=
    hx ▸ (varFor_spec he key h.unshared fun c hc => Entity.mem_of_condition? hc).1
  have hprops : (Draft.addProperty ns e key m d).fragment.props.entries =
      d.fragment.props.entries ++ [(key, x)] := by
    have hnew : ∀ entry ∈ d.fragment.props.entries, entry.2 ≠ x := by
      rintro entry hentry rfl
      exact hfresh (h.used entry hentry)
    rw [← KeyVars.insert_of_not_mem ?_ hnew, ← hx]
    · rfl
    · rw [h.keys]
      exact fun hmem => hkey (List.mem_filter.mp hmem).1
  rw [hx] at hused
  have hentries : ∀ entry ∈ (Draft.addProperty ns e key m d).fragment.props.entries,
      entry ∈ d.fragment.props.entries ∨ entry = (key, x) := by
    intro entry hentry
    rw [hprops] at hentry
    simpa using hentry
  constructor
  case subject => exact h.subject
  case unshared => exact hshared
  case subjectUsed => exact hused (List.mem_cons_of_mem _ h.subjectUsed)
  case used =>
    intro entry hentry
    rcases hentries entry hentry with hentry | rfl
    · exact hused (List.mem_cons_of_mem _ (h.used entry hentry))
    · exact hused List.mem_cons_self
  case keys =>
    have hkeys := h.keys
    unfold KeyVars.keys at hkeys ⊢
    rw [hprops, List.map_append, hkeys, List.filter_append]
    simp [Entity.isRead, hm]
  case apart =>
    rintro entry hentry rfl
    rcases hentries entry hentry with hentry | rfl
    · exact h.apart entry hentry rfl
    · exact (hfresh h.subjectUsed).elim
  case typing => exact htyping
  case stated =>
    intro t ht
    rcases List.mem_cons.mp (hperm.mem_iff.mp ht) with rfl | ht
    · exact ⟨key, by simp, m, x, hm, rfl⟩
    · obtain ⟨k, hk, hstated⟩ := h.stated t ht
      rw [List.append_nil] at hk
      exact ⟨k, by simp [hk], hstated⟩
  case functional => exact h.functional_cons he hm (by simpa using hkey) hperm
  case states =>
    intro entry hentry hid
    rcases hentries entry hentry with hentry | rfl
    · obtain ⟨m', hm', hstated, hnarrow⟩ := h.states entry hentry hid
      exact ⟨m', hm', hperm.mem_iff.mpr (List.mem_cons_of_mem _ hstated),
        fun hnarrows => hmandatory (hnarrow hnarrows)⟩
    · exact ⟨m, hm, hperm.mem_iff.mpr List.mem_cons_self, hmust⟩
  case uncomputed => exact h.uncomputed

/-- Selecting the identity gives it the variable of the subject. -/
theorem identity (h : Tables ns e s class_ selected [] d) (hkey : "@id" ∉ selected) :
    Tables ns e s class_ (selected ++ ["@id"]) []
      { d with fragment.props := d.fragment.props.insert "@id" s } := by
  have hnone : "@id" ∉ d.fragment.props.keys := by
    rw [h.keys]
    exact fun hmem => hkey (List.mem_filter.mp hmem).1
  have hprops : (d.fragment.props.insert "@id" s).entries =
      d.fragment.props.entries ++ [("@id", s)] := by
    refine KeyVars.insert_of_not_mem hnone fun entry hentry heq => hnone ?_
    exact List.mem_map.mpr ⟨entry, hentry, h.apart entry hentry heq⟩
  have hentries : ∀ entry ∈ (d.fragment.props.insert "@id" s).entries,
      entry ∈ d.fragment.props.entries ∨ entry = ("@id", s) := by
    intro entry hentry
    rw [hprops] at hentry
    simpa using hentry
  refine { h with
    used := ?used, keys := ?keys, apart := ?apart, stated := ?stated, states := ?states }
  case used =>
    intro entry hentry
    rcases hentries entry hentry with hentry | rfl
    · exact h.used entry hentry
    · exact h.subjectUsed
  case keys =>
    have hkeys := h.keys
    unfold KeyVars.keys at hkeys ⊢
    rw [hprops, List.map_append, hkeys, List.filter_append]
    simp [Entity.isRead]
  case apart =>
    intro entry hentry heq
    rcases hentries entry hentry with hentry | rfl
    · exact h.apart entry hentry heq
    · rfl
  case stated =>
    intro t ht
    obtain ⟨k, hk, hstated⟩ := h.stated t ht
    rw [List.append_nil] at hk
    exact ⟨k, by simp [hk], hstated⟩
  case states =>
    intro entry hentry hid
    rcases hentries entry hentry with hentry | rfl
    · exact h.states entry hentry hid
    · exact (hid rfl).elim

/-- **One more selected key.** -/
theorem selects (h : Tables ns e s class_ selected [] d) (he : e.Tabular ns)
    (hkey : key ∉ selected) (hstep : Draft.Selects ns options e key d d') :
    Tables ns e s class_ (selected ++ [key]) [] d' := by
  have hunread : e.reads? ns key = none → key ≠ "@id" → e.isRead ns key = false := by
    intro hread hid
    simp [Entity.isRead, hread, hid]
  have hid : Schema.isKeyword key = false → key ≠ "@id" := by
    rintro hword rfl
    simp [Schema.isKeyword] at hword
  cases hstep with
  | identity hid hsubject =>
      rw [h.subject] at hsubject
      cases hsubject
      subst hid
      exact h.identity hkey
  | pinned _ hsubject =>
      rw [h.subject] at hsubject
      cases hsubject
  | type htype =>
      subst htype
      exact h.pass (hunread rfl (by decide))
  | computed _ hcomputed =>
      cases hc : e.condition? key with
      | none => simp [hc] at hcomputed
      | some c => simp [hc, he.uncomputed _ (Entity.mem_of_condition? hc)] at hcomputed
  | borrowed _ _ hshared =>
      simp [Allocator.isShared, h.unshared] at hshared
  | unknown hword hunknown =>
      exact h.pass (hunread (by simp [Entity.reads?, hunknown]) (hid hword))
  | deferred hword hproperty harray =>
      rw [he.scalar key _ hword hproperty] at harray
      cases harray
  | unmapped hword hproperty hmapping =>
      exact h.pass (hunread (by simp [Entity.reads?, hproperty, hmapping]) (hid hword))
  | property hword _ hproperty _ hmapping =>
      exact h.property he hkey (Entity.reads?_eq_some.mpr ⟨hword, ⟨_, hproperty⟩, hmapping⟩)

/-- A condition on a key that is not selected adds a mandatory triple. -/
theorem hidden (h : Tables ns e s class_ selected conditioned d) (he : e.Tabular ns)
    {c : Condition} (hc : (key, c) ∈ e.conditions) (hkey : key ∉ selected ++ conditioned)
    {m : Mapping} (hm : e.reads? ns key = some m) :
    Tables ns e s class_ selected (conditioned ++ [key]) (Draft.addHidden ns e key m c d) := by
  have hown : ∀ c', some c = some c' → (key, c') ∈ e.conditions := by
    rintro _ ⟨⟩
    exact hc
  obtain ⟨-, hvar⟩ := varFor_spec he key h.unshared hown
  obtain ⟨hshared, hused⟩ : Unshared ((Draft.varFor e key (some c) d.alloc).1.name :: d.alloc.used)
      (Draft.addHidden ns e key m c d).alloc := (enduring_unshared _).conditionFilter c hvar
  have hmandatory : (Draft.addHidden ns e key m c d).fragment.mandatory =
      d.fragment.mandatory ++
        [m.triple (.var s) (.var (Draft.varFor e key (some c) d.alloc).1)] := by
    rw [← h.subject]
    rfl
  obtain ⟨htyping, hperm⟩ := h.statements_mandatory hmandatory rfl
  constructor
  case subject => exact h.subject
  case unshared => exact hshared
  case subjectUsed => exact hused (List.mem_cons_of_mem _ h.subjectUsed)
  case used => exact fun entry hentry => hused (List.mem_cons_of_mem _ (h.used entry hentry))
  case keys => exact h.keys
  case apart => exact h.apart
  case typing => exact htyping
  case stated =>
    intro t ht
    rcases List.mem_cons.mp (hperm.mem_iff.mp ht) with rfl | ht
    · exact ⟨key, by simp, m, _, hm, rfl⟩
    · exact (h.skip key).stated t ht
  case functional => exact h.functional_cons he hm hkey hperm
  case states =>
    intro entry hentry hid
    obtain ⟨m', hm', hstated, hnarrow⟩ := h.states entry hentry hid
    exact ⟨m', hm', hperm.mem_iff.mpr (List.mem_cons_of_mem _ hstated),
      fun hnarrows => List.mem_append_left _ (hnarrow hnarrows)⟩
  case uncomputed => exact h.uncomputed

/-- **One more condition.** -/
theorem restricts (h : Tables ns e s class_ selected conditioned d) (he : e.Tabular ns)
    (config : Config) {c : Condition} (hc : (key, c) ∈ e.conditions) (hkey : key ∉ conditioned) :
    Tables ns e s class_ selected (conditioned ++ [key])
      (Draft.addCondition ns config e d (key, c)) := by
  cases hselected : d.fragment.props.contains key with
  | true =>
      rw [show Draft.addCondition ns config e d (key, c) = d by
        simp [Draft.addCondition, hselected]]
      exact h.skip key
  | false =>
      have hstep := Draft.addCondition_restricts ns config e d (key, c)
      generalize Draft.addCondition ns config e d (key, c) = d' at hstep
      cases hstep with
      | keyword | selected | unmapped => exact h.skip key
      | computed => cases he.uncomputed _ hc
      | existence =>
          refine { h.skip key with unshared := h.unshared, subjectUsed := ?_, used := ?_ }
          · exact List.mem_cons_of_mem _ h.subjectUsed
          · exact fun entry hentry => List.mem_cons_of_mem _ (h.used entry hentry)
      | @hidden m _ hword hmapping =>
          have hm : e.reads? ns key = some m := by
            refine Entity.reads?_eq_some.mpr ⟨hword, ?_, hmapping⟩
            have hknown : e.schema.hasProperty key = true := by
              simpa [Entity.knows, Schema.knows, hword] using he.known _ hc
            exact Option.isSome_iff_exists.mp hknown
          -- A selected key that can be read would have a variable.
          have hhidden : key ∉ selected := by
            intro hmem
            have hread : key ∈ d.fragment.props.keys := by
              rw [h.keys]
              exact List.mem_filter.mpr ⟨hmem, by simp [Entity.isRead, hm]⟩
            have hnone : Assoc.get? d.fragment.props.entries key = none := by
              simpa [KeyVars.contains, Assoc.contains] using hselected
            exact Assoc.get?_eq_none_iff.mp hnone hread
          exact h.hidden he hc (by simp [hhidden, hkey]) hm

/-- The selected keys, one after the other. -/
theorem run_selects (h : Tables ns e s class_ selected [] d) (he : e.Tabular ns)
    (options : CompileOptions) (keys : List String) (hnodup : (selected ++ keys).Nodup) :
    Tables ns e s class_ (selected ++ keys) []
      (keys.foldl (Draft.addSelected ns options e) d) := by
  induction keys generalizing selected d with
  | nil => simpa using h
  | cons key rest ih =>
      have hkey : key ∉ selected := fun hmem =>
        (List.nodup_append.mp hnodup).2.2 key hmem key List.mem_cons_self rfl
      have hrest := ih (h.selects he hkey (Draft.addSelected_selects ns options e d key))
        (by simpa using hnodup)
      simpa using hrest

/-- The conditions, one after the other. -/
theorem run_restricts (h : Tables ns e s class_ selected conditioned d) (he : e.Tabular ns)
    (config : Config) (entries : Assoc Condition) (hentries : entries ⊆ e.conditions)
    (hnodup : (conditioned ++ entries.keys).Nodup) :
    Tables ns e s class_ selected (conditioned ++ entries.keys)
      (entries.foldl (Draft.addCondition ns config e) d) := by
  induction entries generalizing conditioned d with
  | nil => simpa [Assoc.keys] using h
  | cons entry rest ih =>
      obtain ⟨key, c⟩ := entry
      obtain ⟨hc, hrest⟩ := List.cons_subset.mp hentries
      have hkey : key ∉ conditioned := fun hmem =>
        (List.nodup_append.mp hnodup).2.2 key hmem key List.mem_cons_self rfl
      have hrun := ih (h.restricts he config hc hkey) hrest
        (by simpa [Assoc.keys] using hnodup)
      simpa [Assoc.keys] using hrun

end Tables

/-- What reading a table relies on: the fragment of a tabular entity gives every selected
key that can be read a variable, and states the class of its subject and at most one
triple more for each predicate. -/
structure Fragment.Table (ns : Namespaces) (e : Entity) (s : Var) (class_ : String)
    (f : Fragment) : Prop where
  subject : f.subject = .var s
  selected : f.selected = e.selectedKeys
  keys : f.props.keys = e.selectedKeys.filter (e.isRead ns)
  identity : f.props.var? "@id" = some s
  template : f.template = exactType (.var s) class_ :: f.statements
  uncomputed : f.bindVars = .empty
  stated : ∀ t ∈ f.statements, ∃ key m x,
    e.reads? ns key = some m ∧ t = m.triple (.var s) (.var x)
  functional : (f.statements.map (·.predicate)).Nodup
  states : ∀ key x, f.props.var? key = some x → key ≠ "@id" → ∃ m, e.reads? ns key = some m ∧
    m.triple (.var s) (.var x) ∈ f.statements ∧
      ((e.condition? key).any Condition.narrows = true →
        m.triple (.var s) (.var x) ∈ f.mandatory)

namespace Fragment.Table

variable {ns : Namespaces} {e : Entity} {s : Var} {class_ : String} {f : Fragment}

/-- The keys with a variable are the selected ones that can be read. -/
theorem exists_var?_iff (h : f.Table ns e s class_) {key : String} :
    (∃ x, f.props.var? key = some x) ↔ key ∈ e.selectedKeys ∧ e.isRead ns key = true := by
  rw [← List.mem_filter, ← h.keys]
  constructor
  · rintro ⟨x, hx⟩
    exact List.mem_map.mpr ⟨(key, x), Assoc.mem_of_get? hx, rfl⟩
  · intro hmem
    cases hvar : f.props.var? key with
    | some x => exact ⟨x, rfl⟩
    | none => exact (Assoc.get?_eq_none_iff.mp hvar hmem).elim

end Fragment.Table

/-- The draft of all selected keys and conditions is a table. -/
theorem Tables.table {ns : Namespaces} {e : Entity} {s : Var} {class_ : String}
    {conditioned : List String} {d : Draft}
    (h : Tables ns e s class_ e.selectedKeys conditioned d) (hidentity : "@id" ∈ e.selectedKeys)
    (hreads : d.fragment.Reads) :
    Fragment.Table ns e s class_ { d.fragment with selected := e.selectedKeys } := by
  obtain ⟨x, hx⟩ : ∃ x, d.fragment.props.var? "@id" = some x := by
    have hmem : "@id" ∈ d.fragment.props.keys := by
      rw [h.keys]
      exact List.mem_filter.mpr ⟨hidentity, rfl⟩
    cases hvar : d.fragment.props.var? "@id" with
    | none => exact (Assoc.get?_eq_none_iff.mp hvar hmem).elim
    | some x => exact ⟨x, rfl⟩
  constructor
  case subject => exact h.subject
  case selected => rfl
  case keys => exact h.keys
  case identity =>
    have hsame := hreads.identity x (Assoc.mem_of_get? hx)
    rw [h.subject, Term.var.injEq] at hsame
    exact hsame ▸ hx
  case template =>
    simp only [Fragment.template, Fragment.statements, h.uncomputed.2, List.append_nil]
    rw [h.typing]
    rfl
  case uncomputed => exact h.uncomputed.1
  case stated =>
    intro t ht
    obtain ⟨key, -, hstated⟩ := h.stated t ht
    exact ⟨key, hstated⟩
  case functional => exact h.functional
  case states => exact fun key x hx hid => h.states (key, x) (Assoc.mem_of_get? hx) hid

/-- **The fragment of a tabular entity is a table.** -/
theorem Entity.Tabular.compile {ns : Namespaces} {e : Entity} {a : Allocator} {class_ : String}
    (he : e.Tabular ns) (hidentity : "@id" ∈ e.selectedKeys) (hclass : e.class? ns = some class_)
    (ha : a.shared = []) (config : Config) (options : CompileOptions) :
    ∃ f a' s, e.compile ns config options a = .ok (f, a') ∧ f.Table ns e s class_ := by
  obtain ⟨s, b, hsubject, hshared, hused⟩ := Tables.exists_subject he ha
  obtain ⟨d, hd⟩ : ∃ d, e.conditions.foldl (Draft.addCondition ns config e)
      (e.selectedKeys.foldl (Draft.addSelected ns options e)
        ((Draft.opening ns e (.var s) b).addType ns e)) = d := ⟨_, rfl⟩
  have hcompile : e.compile ns config options a =
      .ok ({ d.fragment with selected := e.selectedKeys }, d.alloc) := by
    subst hd
    simp only [Entity.compile, hsubject, bind, Except.bind]
    rfl
  have hopen := Tables.opening he hclass hshared hused
  have hselected := hopen.run_selects he options e.selectedKeys (by simpa using he.selected)
  have hdone := hselected.run_restricts he config e.conditions (List.Subset.refl _)
    (by simpa using he.conditions)
  rw [List.nil_append, hd] at hdone
  exact ⟨_, _, s, hcompile,
    hdone.table hidentity ((Entity.compile_reads hcompile).of_eq rfl rfl rfl)⟩

end ObjectGraph
