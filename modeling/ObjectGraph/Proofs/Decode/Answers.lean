import ObjectGraph.Compile.Select
import ObjectGraph.Proofs.Compile.SharedNames
import ObjectGraph.Proofs.Decode.Identity
import ObjectGraph.Proofs.Json.Equality

/-!
# A value for every selected key

Every selected key that the query looks up has a variable and a triple of its own.  The
map by which the results are read keeps one key for a variable, though: where several
selected keys ask for the same shared name, they have the same variable, and the map has
the one that was selected last (`IsLast`, `Entity.Rivals`).  The value that a row binds is
never lost, since it stands under that key (`compileParts_answers`); the keys in front of
it are left without a value, and an object shows it (`label_takes_name`).

The invariant `Draft.Answers` speaks of the keys selected so far.  A key that enters takes
its variable from its rivals only, because every other key has a variable that was new.
-/

namespace ObjectGraph

open Allocator (nameOf varOf)
open Sparql (Var Term)
open Json (Object)

/-! ## Rivals -/

namespace Entity

variable (ns : Namespaces) (options : CompileOptions) (W : String → Prop) (e : Entity)

/-- The name that the variable of a selected key asks for. -/
def askedName (key : String) : String :=
  if key = "@id" then nameOf (e.identityName?.getD ("eIri" ++ toString e.index))
  else e.sharedNameOf key

/-- A selected key gets a variable: the identity if the subject has one, a key of the
schema that the query looks up, and a key outside of it that is a shared name. -/
inductive Enters (subject : Term) : String → Prop
  | identity {x : Var} (hsubject : subject = .var x) : Enters subject "@id"
  | borrowed {key : String} (hkey : Schema.isKeyword key = false)
      (hunknown : e.schema.property? key = none)
      (hcomputed : (e.condition? key).any Condition.isComputed = false)
      (hchosen : W (nameOf key)) : Enters subject key
  | property {key : String} {p : PropertySchema} {m : Mapping}
      (hkey : Schema.isKeyword key = false)
      (hcomputed : (e.condition? key).any Condition.isComputed = false)
      (hproperty : e.schema.property? key = some p)
      (hnow : (p.kind.isArray && options.deferArrays) = false)
      (hmapping : e.mapping? ns key = some m) : Enters subject key

variable {ns options W e} in
/-- The type has no variable of its own. -/
theorem Enters.ne_type {subject : Term} {key : String} (h : e.Enters ns options W subject key) :
    key ≠ "@type" := by
  cases h with
  | identity => decide
  | borrowed hkey | property hkey =>
      rintro rfl
      cases hkey

/-- Another selected key that asks for the same shared name, or the key itself. -/
def Rivals (subject : Term) (key other : String) : Prop :=
  other = key ∨
    e.Enters ns options W subject other ∧ W (e.askedName key) ∧
      e.askedName other = e.askedName key

end Entity

/-- A variable stands for a selected key: as the subject for the identity, as the shared
variable of its name for a key outside the schema, and in the triple of any other key. -/
inductive Fragment.Standing (ns : Namespaces) (e : Entity) (f : Fragment) : String → Var → Prop
  | identity {x : Var} (hsubject : f.subject = .var x) : Standing ns e f "@id" x
  | borrowed {key : String} (hkey : Schema.isKeyword key = false)
      (hunknown : e.schema.property? key = none) : Standing ns e f key (varOf key)
  | property {key : String} {p : PropertySchema} {m : Mapping} {x : Var}
      (hkey : Schema.isKeyword key = false) (hproperty : e.schema.property? key = some p)
      (hmapping : e.mapping? ns key = some m)
      (htriple : m.triple f.subject (.var x) ∈ f.mandatory ++ f.optional) :
      Standing ns e f key x

/-- A variable that stands for a key goes on to do so. -/
theorem Fragment.Standing.mono {ns : Namespaces} {e : Entity} {f f' : Fragment} {key : String}
    {x : Var} (h : f.Standing ns e key x) (hextends : f.Extends f') :
    f'.Standing ns e key x := by
  cases h with
  | identity hsubject => exact .identity (hextends.subject.trans hsubject)
  | borrowed hkey hunknown => exact .borrowed hkey hunknown
  | property hkey hproperty hmapping htriple =>
      refine .property hkey hproperty hmapping ?_
      rw [hextends.subject]
      exact List.mem_append.mpr
        ((List.mem_append.mp htriple).imp (hextends.mandatory ·) (hextends.optional ·))

/-! ## Steps -/

namespace Draft

variable {ns : Namespaces} {config : Config} {options : CompileOptions} {W : String → Prop}
  {e : Entity} {a : Allocator} {d d' : Draft} {done : List String} {key : String} {x : Var}

/-- A selected key that does not enter leaves the map as it is.  One that enters gets a
variable of its own or that of a shared name. -/
theorem Selects.outcome (h : Steady W e d) (hwithin : ∀ entry ∈ e.conditions, entry.2.Within W)
    (hstep : Selects ns options e key d d') :
    (¬ e.Enters ns options W d.fragment.subject key ∧
      d'.fragment.props = d.fragment.props) ∨
    ∃ x, e.Enters ns options W d.fragment.subject key ∧
      d'.fragment.props = d.fragment.props.insert key x ∧ d'.fragment.Standing ns e key x ∧
      ∀ k, k ≠ key → (k, x) ∈ d.fragment.props.entries → W x.name := by
  have hcarries : ∀ {k y}, (k, y) ∈ d.fragment.props.entries →
      Kept (fun _ _ => False) 0 d.fragment.Carries (0, Slot.ofKey k) y :=
    fun hk => .inr ⟨_, rfl, .selected hk⟩
  cases hstep with
  | @identity x hkey hsubject =>
      subst hkey
      refine .inr ⟨x, .identity hsubject, rfl, .identity hsubject, fun k hk hx => ?_⟩
      refine (h.apart.apart _ _ x (hcarries hx) (.inr ⟨_, rfl, .subject hsubject⟩)).resolve_left ?_
      intro heq
      have hslot : Slot.ofKey k = .subject := (Prod.mk.inj heq).2
      unfold Slot.ofKey at hslot
      rw [if_neg hk] at hslot
      split at hslot <;> cases hslot
  | pinned hkey hsubject =>
      refine .inl ⟨fun henters => ?_, rfl⟩
      cases henters with
      | identity hvar => rw [hvar] at hsubject; cases hsubject
      | borrowed hword | property hword => subst hkey; cases hword
  | type hkey => exact .inl ⟨fun henters => henters.ne_type hkey, rfl⟩
  | computed hkey hcomputed =>
      refine .inl ⟨fun henters => ?_, rfl⟩
      cases henters with
      | identity => cases hkey
      | borrowed _ _ hother | property _ hother => rw [hcomputed] at hother; cases hother
  | borrowed hkey hunknown hshared hcomputed =>
      have hchosen : W (nameOf key) :=
        h.apart.ready.shared _ (by simpa [Allocator.isShared] using hshared)
      exact .inr ⟨_, .borrowed hkey hunknown hcomputed hchosen, rfl, .borrowed hkey hunknown,
        fun _ _ _ => hchosen⟩
  | unknown hkey hunknown hshared =>
      refine .inl ⟨fun henters => ?_, rfl⟩
      cases henters with
      | identity => cases hkey
      | borrowed _ _ _ hchosen => simp [Allocator.isShared, h.shared _ hchosen] at hshared
      | property _ _ hproperty => rw [hunknown] at hproperty; cases hproperty
  | deferred hkey hproperty harray hdefer =>
      refine .inl ⟨fun henters => ?_, rfl⟩
      cases henters with
      | identity => cases hkey
      | borrowed _ hunknown => rw [hproperty] at hunknown; cases hunknown
      | property _ _ hproperty' hnow =>
          obtain rfl := Option.some.inj (hproperty.symm.trans hproperty')
          rw [harray, hdefer] at hnow
          cases hnow
  | unmapped hkey hproperty hunmapped =>
      refine .inl ⟨fun henters => ?_, rfl⟩
      cases henters with
      | identity => cases hkey
      | borrowed _ hunknown => rw [hproperty] at hunknown; cases hunknown
      | property _ _ _ _ hmapping => rw [hunmapped] at hmapping; cases hmapping
  | @property p m hkey hcomputed hproperty hnow hmapping =>
      refine .inr ⟨_, .property hkey hcomputed hproperty hnow hmapping, rfl,
        .property hkey hproperty hmapping ?_, fun k _ hx => ?_⟩
      · rw [addProperty_mandatory, addProperty_optional]
        cases mustHave e key
        · exact List.mem_append_right _ (List.mem_append_right _ List.mem_cons_self)
        · exact List.mem_append_left _ (List.mem_append_right _ List.mem_cons_self)
      · have hdraws : Draws W d.alloc (varFor e key (e.condition? key) d.alloc).1 _ :=
          h.apart.ready.draws_varFor e key fun c hc => hwithin _ (Entity.mem_of_condition? hc)
        exact hdraws.fresh.resolve_right fun hfree => hfree (h.apart.taken _ _ (hcarries hx))

/-- The variable of the subject has the name that the identity asks for, if it is a shared
one. -/
def Named (W : String → Prop) (e : Entity) (subject : Term) : Prop :=
  ∀ x, subject = .var x → W x.name ∨ W (e.askedName "@id") → x.name = e.askedName "@id"

/-- The subject has the name that the identity asks for. -/
theorem named_of_subjectTerm {subject : Term} {b : Allocator} (ha : Ready W a)
    (hshared : ∀ n, W n → n ∈ a.shared) (hs : e.subjectTerm ns a = .ok (subject, b)) :
    Named W e subject := by
  rintro x rfl hW
  rw [Entity.askedName, if_pos rfl] at hW ⊢
  rcases Entity.subjectTerm_cases hs with ⟨_, _, hx, _⟩ | ⟨_, name, hc, hx, _⟩ | ⟨_, hnone, hx, _⟩
  · cases hx
  · cases hx
    simp [Entity.identityName?, hc, Condition.sharedName?, Allocator.share]
  · cases hx
    rw [hnone] at hW ⊢
    exact name_of_join ha hshared _ hW

/-- A shared variable has the name that its key asks for. -/
theorem Steady.name_eq (h : Steady W e d) (hnamed : Named W e d.fragment.subject)
    (hx : (key, x) ∈ d.fragment.props.entries) (hW : W x.name ∨ W (e.askedName key)) :
    x.name = e.askedName key := by
  by_cases hkey : key = "@id"
  · subst hkey
    exact hnamed x (h.identity x hx) hW
  · rw [Entity.askedName, if_neg hkey] at hW ⊢
    exact h.takes key x hkey hx hW

/-- Every key that was selected and enters has a variable that stands for it, and the last
of its rivals is the one that the map has for the variable. -/
structure Answers (ns : Namespaces) (options : CompileOptions) (W : String → Prop) (e : Entity)
    (done : List String) (d : Draft) : Prop where
  steady : Steady W e d
  named : Named W e d.fragment.subject
  shown : ∀ key ∈ done, e.Enters ns options W d.fragment.subject key → ∃ x shown,
    d.fragment.Standing ns e key x ∧
      IsLast (e.Rivals ns options W d.fragment.subject key) done shown ∧
      (shown, x) ∈ d.fragment.props.entries

namespace Answers

/-- A step that leaves the map as it is. -/
theorem keep (h : Answers ns options W e done d) (hsteady : Steady W e d')
    (hextends : d.fragment.Extends d'.fragment)
    (hprops : d'.fragment.props = d.fragment.props) : Answers ns options W e done d' := by
  refine ⟨hsteady, hextends.subject ▸ h.named, ?_⟩
  rw [hextends.subject, hprops]
  intro key hkey henters
  obtain ⟨x, shown, hstanding, hlast, hmem⟩ := h.shown key hkey henters
  exact ⟨x, shown, hstanding.mono hextends, hlast, hmem⟩

/-- **One step.**  A key that enters takes its variable from its rivals and from no other
key. -/
theorem selects (h : Answers ns options W e done d)
    (hwithin : ∀ entry ∈ e.conditions, entry.2.Within W)
    (hstep : Selects ns options e key d d') : Answers ns options W e (done ++ [key]) d' := by
  have hsteady := (h.steady.selects hwithin hstep).1
  have hextends := hstep.extends
  have hnamed : Named W e d'.fragment.subject := hextends.subject ▸ h.named
  refine ⟨hsteady, hnamed, ?_⟩
  rw [hextends.subject]
  intro k hk hentersk
  rcases hstep.outcome h.steady hwithin with ⟨hout, hprops⟩ | ⟨x, henters, hprops, hstanding, hfree⟩
  · have hne : k ≠ key := fun heq => hout (heq ▸ hentersk)
    have hdone : k ∈ done := by simpa [hne] using hk
    obtain ⟨x, shown, hstanding, hlast, hmem⟩ := h.shown k hdone hentersk
    refine ⟨x, shown, hstanding.mono hextends, hlast.append ?_, hprops ▸ hmem⟩
    rintro (heq | ⟨hother, _⟩)
    · exact hne heq.symm
    · exact hout hother
  have hnew : (key, x) ∈ d'.fragment.props.entries :=
    hprops ▸ KeyVars.mem_insert_iff.mpr (.inl ⟨rfl, rfl⟩)
  by_cases hkey : k = key
  · subst hkey
    exact ⟨x, k, hstanding, .of_append _ (.inl rfl), hnew⟩
  have hdone : k ∈ done := by simpa [hkey] using hk
  obtain ⟨y, shown, hstandingk, hlast, hmem⟩ := h.shown k hdone hentersk
  have hshown : e.askedName shown = e.askedName k := by
    rcases hlast.holds with rfl | ⟨_, _, heq⟩
    · rfl
    · exact heq
  by_cases hrival : e.Rivals ns options W d.fragment.subject k key
  · -- both ask for a shared name, so they have one variable, and the later key gets it
    obtain ⟨_, hW, hasked⟩ := hrival.resolve_left (Ne.symm hkey)
    have hy : y.name = e.askedName shown := h.steady.name_eq h.named hmem (.inr (hshown ▸ hW))
    have hx : x.name = e.askedName key := hsteady.name_eq hnamed hnew (.inr (hasked ▸ hW))
    obtain rfl : x = y := congrArg Var.mk (hx.trans (hasked.trans (hshown.symm.trans hy.symm)))
    exact ⟨x, key, hstandingk.mono hextends, .of_append _ hrival, hnew⟩
  · have hne : shown ≠ key := fun heq => hrival (heq ▸ hlast.holds)
    have hother : y ≠ x := by
      rintro rfl
      have hW := hfree shown hne hmem
      have hold : y.name = e.askedName shown := h.steady.name_eq h.named hmem (.inl hW)
      have hasked : y.name = e.askedName key := hsteady.name_eq hnamed hnew (.inl hW)
      refine hrival (.inr ⟨henters, ?_, ?_⟩)
      · rwa [← hshown, ← hold]
      · rw [← hasked, hold, hshown]
    refine ⟨y, shown, hstandingk.mono hextends, hlast.append hrival, ?_⟩
    rw [hprops]
    exact KeyVars.mem_insert_iff.mpr (.inr ⟨hmem, hne, hother⟩)

end Answers

end Draft

/-! ## Fragments -/

/-- What stands for a selected key in a fragment: its variable, and the key under which
results are read. -/
structure Fragment.Shows (ns : Namespaces) (options : CompileOptions) (W : String → Prop)
    (e : Entity) (f : Fragment) (key : String) (x : Var) (shown : String) : Prop where
  standing : f.Standing ns e key x
  last : IsLast (e.Rivals ns options W f.subject key) e.selectedKeys shown
  mapped : (shown, x) ∈ f.props.entries
  /-- The key itself is in the map only if it is the last of its rivals. -/
  own : key ∈ f.props.keys ↔ shown = key
  uncomputed : shown ∉ f.bindVars.keys

/-- **The whole run.**  Every selected key that enters is shown. -/
theorem Entity.compile_shows {ns : Namespaces} {config : Config} {options : CompileOptions}
    {W : String → Prop} {e : Entity} {a a' : Allocator} {f : Fragment} (ha : Ready W a)
    (hshared : ∀ n, W n → n ∈ a.shared) (hwithin : ∀ entry ∈ e.conditions, entry.2.Within W)
    (h : e.compile ns config options a = .ok (f, a')) {key : String}
    (hkey : key ∈ e.selectedKeys) (henters : e.Enters ns options W f.subject key) :
    ∃ x shown, f.Shows ns options W e key x shown := by
  have hopen : ∀ subject b, e.subjectTerm ns a = .ok (subject, b) →
      Draft.Answers ns options W e [] (Draft.opening ns e subject b) ∧
        (Draft.opening ns e subject b).fragment.bindVars = .empty := by
    intro subject b hs
    have hfragment : (Draft.opening ns e subject b).fragment.subject = subject ∧
        (Draft.opening ns e subject b).fragment.bindVars = .empty := by
      unfold Draft.opening Draft.addIdentity
      split <;> exact ⟨rfl, rfl⟩
    refine ⟨⟨.opening ha hshared hwithin hs, ?_, by simp⟩, hfragment.2⟩
    rw [hfragment.1]
    exact Draft.named_of_subjectTerm ha hshared hs
  -- the map is complete when the first computed key comes, which is none of the map
  have hrestrict : ∀ entry ∈ e.conditions, ∀ d d',
      Draft.Answers ns options W e e.selectedKeys d ∧
        (∀ k ∈ d.fragment.bindVars.keys, k ∉ d.fragment.props.keys) →
      Draft.Restricts ns config e entry.1 d entry.2 d' →
      Draft.Answers ns options W e e.selectedKeys d' ∧
        ∀ k ∈ d'.fragment.bindVars.keys, k ∉ d'.fragment.props.keys := by
    rintro ⟨k, c⟩ hentry d d' ⟨hd, hapart⟩ hstep
    have hsteady := (hd.steady.restricts (hwithin _ hentry) hstep).1
    have hextends := hstep.extends
    cases hstep with
    | keyword | selected | unmapped => exact ⟨hd, hapart⟩
    | existence | hidden => exact ⟨hd.keep hsteady hextends rfl, hapart⟩
    | computed _ hfree =>
        refine ⟨hd.keep hsteady hextends rfl, fun j hj => ?_⟩
        rcases KeyVars.mem_keys_insert hj with hold | rfl
        · exact hapart j hold
        · exact Assoc.get?_eq_none_iff.mp (Option.isSome_eq_false_iff.mp hfree |>
            Option.isNone_iff_eq_none.mp)
  obtain ⟨d, ⟨hd, hcomputed⟩, rfl, -⟩ := compile_stages
    (fun done d => Draft.Answers ns options W e done d ∧ d.fragment.bindVars = .empty)
    (fun _ d => Draft.Answers ns options W e e.selectedKeys d ∧
      ∀ k ∈ d.fragment.bindVars.keys, k ∉ d.fragment.props.keys)
    (fun subject b d hs hstep => by
      have hd := hopen subject b hs
      refine ⟨⟨(hd.1.steady.types hstep).1, hstep.extends.subject ▸ hd.1.named, by simp⟩, ?_⟩
      cases hstep <;> exact hd.2)
    (fun done k _ d d' hd hstep => by
      refine ⟨hd.1.selects hwithin hstep, ?_⟩
      cases hstep <;> exact hd.2)
    (fun d hd => ⟨hd.1, by simp [hd.2, KeyVars.keys, KeyVars.empty]⟩)
    (fun _ entry _ heq => hrestrict entry (heq ▸ List.mem_append_right _ List.mem_cons_self))
    h
  obtain ⟨x, shown, hstanding, hlast, hmem⟩ := hd.shown key hkey henters
  have hkeys : shown ∈ d.fragment.props.keys := List.mem_map_of_mem hmem
  refine ⟨x, shown, hstanding.mono (.selected _ _), hlast, hmem, ⟨fun hown => ?_, (· ▸ hkeys)⟩,
    fun hbound => hcomputed shown hbound hkeys⟩
  rcases hlast.holds with heq | ⟨_, hW, hasked⟩
  · exact heq
  · obtain ⟨⟨k, y⟩, hy, rfl⟩ := List.mem_map.mp hown
    have hyname : y.name = e.askedName k := hd.steady.name_eq hd.named hy (.inr hW)
    have hxname : x.name = e.askedName shown :=
      hd.steady.name_eq hd.named hmem (.inr (hasked ▸ hW))
    obtain rfl : x = y := congrArg Var.mk (hxname.trans (hasked.trans hyname.symm))
    exact congrArg Prod.fst (List.inj_on_of_nodup_map d.fragment.props.nodup_vars hmem hy rfl)

namespace Decode

variable {ns : Namespaces} {p : Part} {row : Row} {objects : List Object}

/-- A row's value for a variable stands under the key of the variable. -/
theorem get?_entityObject_of_mem (ns : Namespaces) {key : String} {x : Var}
    (hmem : (key, x) ∈ p.fragment.props.entries) (hkey : key ≠ "@type")
    (huncomputed : key ∉ p.fragment.bindVars.keys) {b : Binding} (hb : row.get? x.name = some b) :
    Assoc.get? (entityObject ns row p) key =
      some (binding ns (knownKind? p.entity key) b) := by
  have hvar : p.fragment.props.var? key = some x := KeyVars.var?_eq_some_iff.mpr hmem
  have hcomputed : p.fragment.bindVars.var? key = none := Assoc.get?_eq_none_iff.mpr huncomputed
  unfold entityObject
  dsimp only
  rw [get?_enterClass ns p hkey, get?_enterPinned, get?_enterBound,
    get?_enterBound, hcomputed, hvar]
  simp [hb]

/-- No key is lost to a merged value, and the key of the value is there. -/
theorem mem_keys_mergeKey {number : Nat} {m : Object} {entry : String × Json.Value}
    {key : String} (h : key ∈ m.keys ∨ key = entry.1) :
    key ∈ Assoc.keys (mergeKey number m entry) := by
  obtain ⟨k, v⟩ := entry
  unfold mergeKey
  dsimp only
  split
  next htype =>
    unfold mergeType
    dsimp only
    split <;> exact Assoc.mem_keys_insert.mpr (htype ▸ h)
  next =>
    split
    next => exact Assoc.mem_keys_insert.mpr h
    next w hw =>
      have hk : k ∈ m.keys := by
        have hne : Assoc.get? m k ≠ none := by simp [hw]
        exact Decidable.not_not.mp (mt Assoc.get?_eq_none_iff.mpr hne)
      have hkey : key ∈ m.keys := h.elim id (· ▸ hk)
      split
      · exact hkey
      · exact Assoc.mem_keys_insert.mpr (.inl hkey)

/-- Merging an object keeps all keys and adds those of the object. -/
theorem mem_keys_foldl_mergeKey {number : Nat} {object m : Object} {key : String}
    (h : key ∈ m.keys ∨ key ∈ object.keys) :
    key ∈ Assoc.keys (object.foldl (mergeKey number) m) := by
  induction object generalizing m with
  | nil => exact h.resolve_right List.not_mem_nil
  | cons entry rest ih =>
      refine ih ?_
      rcases h with h | h
      · exact .inl (mem_keys_mergeKey (.inl h))
      · rcases List.mem_cons.mp h with h | h
        · exact .inl (mem_keys_mergeKey (.inr h))
        · exact .inr h

/-- No key of any object is lost when objects are merged. -/
theorem mem_keys_merge {o : Object} (ho : o ∈ objects) {key : String} (hkey : key ∈ o.keys) :
    key ∈ Assoc.keys (merge objects) := by
  have hfrom : ∀ (rest : List Object) (m : Object) (number : Nat),
      (key ∈ m.keys ∨ ∃ o ∈ rest, key ∈ o.keys) →
        key ∈ Assoc.keys (mergeFrom m number rest) := by
    intro rest
    induction rest with
    | nil => simp [mergeFrom]
    | cons object rest ih =>
        intro m number h
        refine ih _ _ ?_
        rcases h with h | ⟨o, ho, h⟩
        · exact .inl (mem_keys_foldl_mergeKey (.inl h))
        · rcases List.mem_cons.mp ho with rfl | ho
          · exact .inl (mem_keys_foldl_mergeKey (.inr h))
          · exact .inr ⟨o, ho, h⟩
  cases objects with
  | nil => cases ho
  | cons root rest =>
      refine hfrom rest root 1 ?_
      rcases List.mem_cons.mp ho with rfl | ho
      · exact .inl hkey
      · exact .inr ⟨o, ho, hkey⟩

/-! ## Collections -/

/-- **Every selected key can be read.**  A selected key of an entity that enters has a
variable that stands for it.  The variable is selected, and what a row binds to it stands
in the object of the entity under the last of the rivals of the key, a key that the object
of the row has as well.  A key without rivals is shown itself. -/
theorem compileParts_answers {config : Config} {options : CompileOptions} {c : Collection}
    {parts : List Part} (h : c.compileParts ns config options = .ok parts) (hp : p ∈ parts)
    {key : String} (hkey : key ∈ p.entity.selectedKeys)
    (henters : p.entity.Enters ns options c.Chooses p.fragment.subject key) :
    ∃ x shown, p.fragment.Shows ns options c.Chooses p.entity key x shown ∧
      ((∀ other ∈ p.entity.selectedKeys,
        p.entity.Rivals ns options c.Chooses p.fragment.subject key other → other = key) →
        shown = key) ∧
      x ∈ Collection.projection (parts.map (·.fragment)) ∧
      ∀ row b, Assoc.get? row x.name = some b →
        Assoc.get? (entityObject ns row p) shown =
          some (binding ns (knownKind? p.entity shown) b) ∧
        shown ∈ Assoc.keys (rowObject ns parts row) := by
  obtain ⟨a, a', ha, hshared, hwithin, hcompile⟩ := Collection.compileParts_ready h hp
  obtain ⟨x, shown, hshows⟩ := Entity.compile_shows ha hshared hwithin hcompile hkey henters
  refine ⟨x, shown, hshows, fun hrivals => ?_, ?_, ?_⟩
  · exact hrivals shown hshows.last.mem hshows.last.holds
  · have hx : x ∈ p.fragment.projection :=
      List.mem_append_left _ (List.mem_map.mpr ⟨_, hshows.mapped, rfl⟩)
    exact List.mem_eraseDups.mpr
      (List.mem_flatMap.mpr ⟨p.fragment, List.mem_map_of_mem hp, hx⟩)
  · intro row b hb
    have htype : shown ≠ "@type" := by
      rcases hshows.last.holds with rfl | ⟨hother, _⟩
      · exact henters.ne_type
      · exact hother.ne_type
    have hvalue := get?_entityObject_of_mem ns hshows.mapped htype hshows.uncomputed hb
    refine ⟨hvalue, mem_keys_merge (List.mem_map_of_mem hp) ?_⟩
    exact List.mem_map_of_mem (Assoc.mem_of_get? hvalue)

/-- A thing whose name and label are asked to be the same. -/
def selfNamed : Collection where
  entities :=
    [{ index := 0
       schema :=
         { targetClass := some "ex:Thing"
           context := [("name", .str "ex:name"), ("label", .str "ex:label")]
           properties := [("name", {}), ("label", {})] }
       conditions := [("name", .shared "x"), ("label", .shared "x")] }]

/-- The label is shown with the value that both have. -/
theorem compileParts_answers_selfNamed :
    ∃ parts p, selfNamed.compileParts .exampleOrg {} {} = .ok parts ∧ p ∈ parts ∧
      "label" ∈ p.entity.selectedKeys ∧
      p.entity.Enters .exampleOrg {} selfNamed.Chooses p.fragment.subject "label" ∧
      ∃ x, p.fragment.Shows .exampleOrg {} selfNamed.Chooses p.entity "label" x "label" ∧
        ∀ row b, Assoc.get? row x.name = some b →
          Assoc.get? (entityObject .exampleOrg row p) "label" =
            some (binding .exampleOrg (some .string) b) := by
  obtain ⟨parts, p, h, hp, hkey, hmem, hkind, henters⟩ :
      ∃ parts p, selfNamed.compileParts .exampleOrg {} {} = .ok parts ∧ p ∈ parts ∧
        "label" ∈ p.entity.selectedKeys ∧ "label" ∈ p.fragment.props.keys ∧
        knownKind? p.entity "label" = some .string ∧
        p.entity.Enters .exampleOrg {} selfNamed.Chooses p.fragment.subject "label" :=
    ⟨_, _, rfl, List.mem_singleton_self _, by decide +kernel, by decide +kernel, rfl,
      .property rfl rfl rfl rfl rfl⟩
  obtain ⟨x, shown, hshows, -, -, hvalue⟩ := compileParts_answers h hp hkey henters
  obtain rfl := hshows.own.mp hmem
  exact ⟨parts, p, h, hp, hkey, henters, x, hshows, fun row b hb =>
    (hvalue row b hb).1.trans (by rw [hkind])⟩

/-- The label takes the variable of the name, which is selected but left without a value.
Its triple comes a second time, as that of a hidden key. -/
theorem label_takes_name :
    ∃ plan ∈ (selfNamed.compileSelect .exampleOrg {}).toOption, ∃ p, plan.parts = [p] ∧
      "name" ∈ p.fragment.selected ∧ p.fragment.props.var? "name" = none ∧
      p.fragment.hidden.var? "name" = some ⟨"x"⟩ ∧
      p.fragment.mandatory.count
        ⟨.var ⟨"eIri0"⟩, .iri "http://example.org/name", .var ⟨"x"⟩⟩ = 2 ∧
      solutions .exampleOrg plan.parts
          [[("eIri0", .uri "http://example.org/t"), ("x", .literal "n")]] =
        [[("@id", .str "ex:t"), ("label", .str "n")]] :=
  ⟨_, rfl, _, rfl, by decide +kernel, by decide +kernel, by decide +kernel, by decide +kernel,
    by decide +kernel⟩

end Decode

end ObjectGraph
