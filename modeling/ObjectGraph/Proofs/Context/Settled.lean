import ObjectGraph.Proofs.Context.Following
import ObjectGraph.Proofs.Namespaces

/-!
# Objects whose names settle

A name is settled if it stands for itself, as an IRI in full does, or leads to such a name
in a single step, through its prefix.  Where all definitions of an object are settled the
search for an IRI always comes to an end (`resolve_total`), so an object with accepted
definitions makes the context of these terms (`parse_defined`), with nothing else in it if
no member is a keyword (`parse_plain`).
-/

namespace ObjectGraph

open Json (Value Object)

namespace Context

/-! ## Following names -/

/-- A name that leads nowhere else: an IRI with `//` behind its scheme. -/
structure Full (w : String) : Prop where
  parts : Iri.compactParts? w = none
  absolute : Iri.isAbsolute w = true

/-- A name that leads nowhere else under an object: an IRI that no definition of the object
or the context beneath reads as a compact one. -/
structure Own (members : Object) (base : Context) (w : String) : Prop where
  absolute : Iri.isAbsolute w = true
  foreign : ∀ name rest, Iri.compactParts? w = some (name, rest) →
    localTarget? members name = none ∧ base.iriOf? name = none

/-- A name that stands for itself, or leads through its prefix to one that does. -/
inductive Settled (members : Object) (base : Context) (w : String) : Prop
  | own (h : Own members base w)
  | compact {name rest stem : String} (hw : Iri.isKeyword w = false)
      (hparts : Iri.compactParts? w = some (name, rest))
      (htarget : localTarget? members name = some stem) (hstem : Own members base stem)

variable {members : Object} {base ctx : Context} {vocab : Option String}

/-- A full IRI leads nowhere else under any object. -/
theorem Full.own {w : String} (h : Full w) : Own members base w where
  absolute := h.absolute
  foreign := fun name rest hparts => by
    rw [h.parts] at hparts
    cases hparts

/-- A name that leads nowhere else is no keyword. -/
theorem Own.isKeyword {w : String} (h : Own members base w) : Iri.isKeyword w = false :=
  Iri.isKeyword_of_isAbsolute h.absolute

/-- The search stops at a name that leads nowhere else. -/
theorem follow_own {w : String} (h : Own members base w) {seen : List String} (hseen : w ∉ seen)
    (n : Nat) : follow members base vocab (n + 1) seen w = .ok w := by
  rw [follow, if_neg (by simp [h.isKeyword]), if_neg hseen]
  cases hparts : Iri.compactParts? w with
  | none => simp [h.absolute]
  | some parts =>
      obtain ⟨hlocal, hbase⟩ := h.foreign parts.1 parts.2 hparts
      simp [hlocal, hbase]

/-- From a compact IRI the search goes on to its prefix, and puts the rest behind what it finds. -/
theorem follow_compact {w name rest stem : String} (hw : Iri.isKeyword w = false)
    (hparts : Iri.compactParts? w = some (name, rest))
    (htarget : localTarget? members name = some stem) (hstem : Own members base stem)
    {seen : List String} (hseen : w ∉ seen) (hstemSeen : stem ∉ seen) (n : Nat) :
    follow members base vocab (n + 2) seen w = .ok (stem ++ rest) := by
  have hne : stem ≠ w := by
    rintro rfl
    rw [(hstem.foreign name rest hparts).1] at htarget
    cases htarget
  have hnext : follow members base vocab (n + 1) (w :: seen) stem = .ok stem :=
    follow_own hstem (by simp [hne, hstemSeen]) n
  rw [follow]
  simp [hw, hseen, hparts, htarget, hnext, bind, Except.bind]

/-- A settled name is followed to its end from any names seen before that are neither
the name itself nor stand for themselves. -/
theorem Settled.follow {w : String} (h : Settled members base w) {seen : List String}
    (hseen : w ∉ seen) (hown : ∀ v ∈ seen, ¬ Own members base v) (n : Nat) :
    ∃ iri, Context.follow members base vocab (n + 2) seen w = .ok iri := by
  cases h with
  | own h => exact ⟨_, follow_own h hseen (n + 1)⟩
  | compact hw hparts htarget hstem =>
      exact ⟨_, follow_compact hw hparts htarget hstem hseen (fun hmem => hown _ hmem hstem) n⟩

/-- Where all definitions of terms are settled, every name is followed to its end. -/
theorem resolve_total (h : ∀ name target, Iri.isKeyword name = false →
    localTarget? members name = some target → Settled members base target) (value : String) :
    ∃ iri, resolve members base vocab value = .ok iri := by
  have hnext : ∀ name target, Iri.isKeyword name = false →
      localTarget? members name = some target → target ≠ value → ¬ Own members base value →
      ∃ iri, Context.follow members base vocab (members.length + 1) [value] target = .ok iri := by
    intro name target hname htarget hne hown
    obtain ⟨n, hn⟩ : ∃ n, members.length + 1 = n + 2 := by
      cases members with
      | nil => cases htarget
      | cons member rest => exact ⟨rest.length, by simp⟩
    rw [hn]
    exact (h name target hname htarget).follow (by simpa using hne) (by simpa using hown) n
  unfold resolve
  rw [Context.follow]
  cases hword : Iri.isKeyword value with
  | true => exact ⟨value, by simp⟩
  | false =>
      cases hparts : Iri.compactParts? value with
      | some parts =>
          obtain ⟨name, rest⟩ := parts
          have hname : Iri.isKeyword name = false := Iri.isKeyword_of_parts hparts ▸ hword
          cases htarget : localTarget? members name with
          | none => cases hbase : base.iriOf? name <;> simp [htarget, hbase]
          | some target =>
              have hown : ¬ Own members base value := fun hown => by
                rw [(hown.foreign name rest hparts).1] at htarget
                cases htarget
              -- A definition under its own prefix would stand for itself.
              have hne : target ≠ value := by
                rintro rfl
                cases h name target hname htarget with
                | own hself => exact hown hself
                | compact _ hparts' htarget' hstem =>
                    obtain ⟨rfl, rfl⟩ := Prod.mk.inj (Option.some.inj (hparts.symm.trans hparts'))
                    exact hown (Option.some.inj (htarget.symm.trans htarget') ▸ hstem)
              obtain ⟨iri, hiri⟩ := hnext name target hname htarget hne hown
              exact ⟨iri ++ rest, by simp [htarget, hiri, bind, Except.bind]⟩
      | none =>
          cases habsolute : Iri.isAbsolute value with
          | true => exact ⟨value, by simp⟩
          | false =>
              cases htarget : localTarget? members value with
              | none => simp
              | some target =>
                  by_cases hne : target = value
                  · simp [hne]
                  · have hown : ¬ Own members base value := fun hown => by
                      rw [hown.absolute] at habsolute
                      cases habsolute
                    obtain ⟨iri, hiri⟩ := hnext value target hword htarget hne hown
                    exact ⟨iri, by simp [hne, hiri]⟩

/-! ## Reading objects of settled definitions -/

/-- A text that stands for itself maps its term to itself. -/
theorem define_own {w : String} (h : Own members base w) (term : String) :
    define (resolve members base vocab) term (.str w) = .ok (.ofIri w) := by
  have hresolve : resolve members base vocab w = .ok w := follow_own h (by simp) _
  simp [define, hresolve, bind, Except.bind]

/-- A coercion is read as long as every name is followed to its end. -/
theorem coercionOf_total {resolve : String → Except ContextError String}
    (h : ∀ value, ∃ iri, resolve value = .ok iri) (v : Option Value) :
    ∃ c, coercionOf resolve v = .ok c := by
  unfold coercionOf
  split
  · exact ⟨_, rfl⟩
  · exact ⟨_, rfl⟩
  · exact ⟨_, rfl⟩
  next name _ _ _ =>
    obtain ⟨iri, hiri⟩ := h name
    exact ⟨some (.datatype iri), by simp [hiri, bind, Except.bind]⟩
  · exact ⟨_, rfl⟩

/-- Members that are no keywords leave vocabulary and base. -/
theorem foldlM_setKeyword_plain (h : ∀ member ∈ members, Iri.isKeyword member.1 = false)
    (ctx : Context) : members.foldlM setKeyword ctx = .ok ctx := by
  induction members with
  | nil => rfl
  | cons member rest ih =>
      obtain ⟨hmember, hrest⟩ := List.forall_mem_cons.mp h
      obtain ⟨key, v⟩ := member
      have hset : setKeyword ctx (key, v) = .ok ctx := by
        unfold setKeyword
        split
        all_goals first
          | rfl
          | simp_all [Iri.isKeyword]
      rw [List.foldlM_cons, hset]
      exact ih hrest

/-- A vocabulary that is a text or null is accepted, and so is whatever else the members
set. -/
theorem exists_opened
    (h : ∀ member ∈ members, member.1 = "@vocab" → member.2 = .null ∨ ∃ s, member.2 = .str s)
    (ctx : Context) :
    ∃ opened, members.foldlM setKeyword ctx = .ok opened := by
  induction members generalizing ctx with
  | nil => exact ⟨ctx, rfl⟩
  | cons member rest ih =>
      obtain ⟨hmember, hrest⟩ := List.forall_mem_cons.mp h
      obtain ⟨next, hnext⟩ : ∃ next, setKeyword ctx member = .ok next := by
        unfold setKeyword
        split
        · exact ⟨_, rfl⟩
        · exact ⟨_, rfl⟩
        next found hstr hnull =>
          rcases hmember rfl with rfl | ⟨s, rfl⟩
          · exact (hnull rfl).elim
          · exact (hstr s rfl).elim
        · exact ⟨_, rfl⟩
        · exact ⟨_, rfl⟩
      rw [List.foldlM_cons, hnext]
      exact ih hrest next

/-- The definition that a member gives its term, if it is accepted. -/
def defined (resolve : String → Except ContextError String) (member : String × Value) :
    Definition :=
  match define resolve member.1 member.2 with
  | .ok d => d
  | .error _ => .empty

/-- A member that is accepted gives the definition it is accepted with. -/
theorem defined_eq {resolve : String → Except ContextError String} {member : String × Value}
    {d : Definition} (h : define resolve member.1 member.2 = .ok d) :
    defined resolve member = d := by
  simp [defined, h]

/-- The members of an object that can define terms. -/
def wordMembers (members : Object) : Object :=
  members.filter fun member => !Iri.isKeyword member.1

/-- The definitions that the members of an object give their terms. -/
def definitions (resolve : String → Except ContextError String) (members : Object) :
    Assoc Definition :=
  (wordMembers members).map fun m => (m.1, defined resolve m)

/-- The definitions stand under the words of the object. -/
theorem keys_definitions (resolve : String → Except ContextError String) (members : Object) :
    Assoc.keys (definitions resolve members) = (wordMembers members).keys := by
  simp [definitions, Assoc.keys]

/-- Each word has one definition. -/
theorem nodup_definitions (resolve : String → Except ContextError String)
    (hkeys : members.keys.Nodup) : (Assoc.keys (definitions resolve members)).Nodup := by
  rw [keys_definitions]
  exact hkeys.sublist (List.filter_sublist.map Prod.fst)

/-- Members that are accepted enter their definitions in order, those that are keywords
none. -/
theorem foldlM_setTerm_accepted {resolve : String → Except ContextError String}
    (h : ∀ member ∈ members, Iri.isKeyword member.1 = false →
      ∃ d, define resolve member.1 member.2 = .ok d) (ctx : Context) :
    members.foldlM (setTerm resolve) ctx =
      .ok { ctx with
        terms := (definitions resolve members).foldl (fun terms e => Assoc.insert terms e.1 e.2)
          ctx.terms } := by
  induction members generalizing ctx with
  | nil => cases ctx; rfl
  | cons member rest ih =>
      obtain ⟨hmember, hrest⟩ := List.forall_mem_cons.mp h
      rw [List.foldlM_cons]
      cases hword : Iri.isKeyword member.1 with
      | true =>
          have hset : setTerm resolve ctx member = .ok ctx := by
            unfold setTerm
            rw [if_pos hword]
          have hskipped : definitions resolve (member :: rest) = definitions resolve rest := by
            simp [definitions, wordMembers, hword]
          rw [hset, hskipped]
          exact ih hrest ctx
      | false =>
          obtain ⟨d, hd⟩ := hmember hword
          have hset : setTerm resolve ctx member =
              .ok (ctx.insert member.1 (defined resolve member)) := by
            rw [defined_eq hd]
            obtain ⟨key, v⟩ := member
            unfold setTerm
            dsimp only at hword hd ⊢
            rw [if_neg (by simp [hword])]
            cases v with
            | null => cases hd
            | bool | num | str | arr | obj => simp [hd, bind, Except.bind]
          have hentered : definitions resolve (member :: rest) =
              (member.1, defined resolve member) :: definitions resolve rest := by
            simp [definitions, wordMembers, hword]
          rw [hset, hentered]
          exact ih hrest _

/-- Members with new keys define their terms in order, behind those that are there. -/
theorem foldlM_setTerm_new {resolve : String → Except ContextError String}
    (h : ∀ member ∈ members, Iri.isKeyword member.1 = false →
      ∃ d, define resolve member.1 member.2 = .ok d)
    (hnew : (Assoc.keys ctx.terms ++ members.keys).Nodup) :
    members.foldlM (setTerm resolve) ctx =
      .ok { ctx with terms := ctx.terms ++ definitions resolve members } := by
  rw [foldlM_setTerm_accepted h, Assoc.foldl_insert]
  rw [keys_definitions]
  exact hnew.sublist ((List.Sublist.refl _).append (List.filter_sublist.map Prod.fst))

/-- Without contexts of their own, the terms of an object stay as they are. -/
theorem parseScopes_plain (h : ∀ key entry, (key, .obj entry) ∈ members →
    Assoc.get? entry "@context" = none) (ctx : Context) : parseScopes ctx members = .ok ctx := by
  induction members with
  | nil => unfold parseScopes; rfl
  | cons member rest ih =>
      have hrest := ih fun key entry hmem => h key entry (List.mem_cons_of_mem _ hmem)
      obtain ⟨key, v⟩ := member
      cases v with
      | null | bool | num | str | arr => unfold parseScopes; exact hrest
      | obj entry =>
          unfold parseScopes
          rw [parseWrapped_eq, h key entry List.mem_cons_self]
          exact hrest

/-- An object that wraps no context and whose members carry none is read by its members. -/
theorem parse_unscoped (hwrapped : "@context" ∉ members.keys)
    (hscopes : ∀ key entry, (key, .obj entry) ∈ members → Assoc.get? entry "@context" = none)
    (base : Context) : parse base (.obj members) = parseTerms base members := by
  unfold parse
  rw [parseWrapped_eq, Assoc.get?_eq_none_iff.mpr hwrapped]
  dsimp only [Option.map_none]
  cases parseTerms base members with
  | error e => rfl
  | ok ctx => exact parseScopes_plain hscopes ctx

/-- **Objects that define new terms.**  If no member wraps or carries a context, an object
whose definitions are accepted makes the context of them, with the vocabulary and base that
it sets. -/
theorem parse_defined {opened : Context} (hkeys : members.keys.Nodup)
    (hwrapped : "@context" ∉ members.keys)
    (hopened : members.foldlM setKeyword .empty = .ok opened)
    (hmembers : ∀ member ∈ members, Iri.isKeyword member.1 = false →
      ∃ d, define (resolve members .empty opened.vocab) member.1 member.2 = .ok d)
    (hscopes : ∀ key entry, (key, .obj entry) ∈ members → Assoc.get? entry "@context" = none) :
    parse .empty (.obj members) =
      .ok { opened with
        terms := definitions (resolve members .empty opened.vocab) members } := by
  have hterms : opened.terms = [] := (foldlM_setKeyword hkeys hopened).1
  have hnew : (Assoc.keys opened.terms ++ members.keys).Nodup := by
    simpa [Assoc.keys, hterms] using hkeys
  have hdefined := foldlM_setTerm_new hmembers hnew
  rw [hterms, List.nil_append] at hdefined
  rw [parse_unscoped hwrapped hscopes, parseTerms]
  simp only [hopened, hdefined, bind, Except.bind]

/-- **Objects that name terms only.**  If no member is a keyword and none carries a
context, an object whose definitions are accepted makes the context of them. -/
theorem parse_plain (hkeys : members.keys.Nodup)
    (hmembers : ∀ member ∈ members, Iri.isKeyword member.1 = false ∧
      ∃ d, define (resolve members .empty none) member.1 member.2 = .ok d)
    (hscopes : ∀ key entry, (key, .obj entry) ∈ members → Assoc.get? entry "@context" = none) :
    parse .empty (.obj members) =
      .ok ⟨none, none,
        members.map fun m => (m.1, defined (resolve members .empty none) m)⟩ := by
  have hwrapped : "@context" ∉ members.keys := by
    intro hmem
    obtain ⟨member, hmember, hkey⟩ := List.mem_map.mp hmem
    have hword := (hmembers member hmember).1
    rw [hkey] at hword
    revert hword
    decide
  have hwords : wordMembers members = members :=
    List.filter_eq_self.mpr fun member hmember => by simp [(hmembers member hmember).1]
  have hparse := parse_defined hkeys hwrapped
    (foldlM_setKeyword_plain (fun member hmember => (hmembers member hmember).1) .empty)
    (fun member hmember _ => (hmembers member hmember).2) hscopes
  rwa [definitions, hwords] at hparse

end Context

end ObjectGraph
