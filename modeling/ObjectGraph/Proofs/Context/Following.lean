import ObjectGraph.Context.Parse

/-!
# What names lead to

The IRI of a name is found by following the definitions of an object.  `Leads`
says what a name leads to by the rules of contexts alone, without the fuel and the
list of names seen that the search needs to stop.  A name leads to one IRI at most
(`Leads.unique`), and the search finds no other one (`leads_of_follow`).

The rest of the module reads the terms of an accepted context back: a term has the
IRI that the name in its definition leads to, whatever contexts the terms of the
object carry (`parse_obj`).  Members that start with `@` define no term.
-/

namespace ObjectGraph

open Json (Value Object)

/-- What a definition maps its term to: an IRI, or one that is read backwards. -/
def Definition.target (d : Definition) : Option String × Option String :=
  (d.iri, d.reverse)

namespace Context

/-- Under the definitions of an object over a context a name leads to an IRI. -/
inductive Leads (members : Object) (base : Context) (vocab : Option String) :
    String → String → Prop
  | keyword {w : String} (hw : Iri.isKeyword w = true) : Leads members base vocab w w
  | compact {w name rest target stem : String} (hw : Iri.isKeyword w = false)
      (hparts : Iri.compactParts? w = some (name, rest))
      (htarget : localTarget? members name = some target)
      (h : Leads members base vocab target stem) : Leads members base vocab w (stem ++ rest)
  | inherited {w name rest stem : String} (hw : Iri.isKeyword w = false)
      (hparts : Iri.compactParts? w = some (name, rest))
      (htarget : localTarget? members name = none) (hbase : base.iriOf? name = some stem) :
      Leads members base vocab w (stem ++ rest)
  | foreign {w name rest : String} (hw : Iri.isKeyword w = false)
      (hparts : Iri.compactParts? w = some (name, rest))
      (htarget : localTarget? members name = none) (hbase : base.iriOf? name = none) :
      Leads members base vocab w w
  | absolute {w : String} (hw : Iri.isKeyword w = false) (hparts : Iri.compactParts? w = none)
      (habsolute : Iri.isAbsolute w = true) : Leads members base vocab w w
  | term {w target iri : String} (hw : Iri.isKeyword w = false)
      (hparts : Iri.compactParts? w = none) (habsolute : Iri.isAbsolute w = false)
      (htarget : localTarget? members w = some target) (hne : target ≠ w)
      (h : Leads members base vocab target iri) : Leads members base vocab w iri
  | word {w : String} (hw : Iri.isKeyword w = false) (hparts : Iri.compactParts? w = none)
      (habsolute : Iri.isAbsolute w = false)
      (htarget : ∀ target, localTarget? members w = some target → target = w) :
      Leads members base vocab w (inheritedIri base vocab w)

variable {members : Object} {base ctx ctx' : Context} {vocab : Option String}

/-- A name leads to one IRI at most. -/
theorem Leads.unique {w i j : String} (h : Leads members base vocab w i)
    (h' : Leads members base vocab w j) : i = j := by
  induction h generalizing j with
  | keyword hw => cases h' <;> simp_all
  | @compact w name rest target stem hw hparts htarget h ih =>
      cases h' with
      | @compact _ name' rest' target' stem' hw' hparts' htarget' h' =>
          obtain ⟨rfl, rfl⟩ : name = name' ∧ rest = rest' := by simp_all
          obtain rfl : target = target' := by simp_all
          rw [ih h']
      | keyword | inherited | foreign | absolute | term | word => simp_all
  | inherited hw hparts htarget hbase => cases h' <;> simp_all
  | foreign hw hparts htarget hbase => cases h' <;> simp_all
  | absolute hw hparts habsolute => cases h' <;> simp_all
  | @term w target iri hw hparts habsolute htarget hne h ih =>
      cases h' with
      | @term _ target' iri' hw' hparts' habsolute' htarget' hne' h' =>
          obtain rfl : target = target' := by simp_all
          exact ih h'
      | word _ _ _ hself => exact (hne (hself target htarget)).elim
      | keyword | compact | inherited | foreign | absolute => simp_all
  | word hw hparts habsolute hself =>
      cases h' with
      | term _ _ _ htarget hne => exact (hne (hself _ htarget)).elim
      | keyword | compact | inherited | foreign | absolute => simp_all
      | word => rfl

/-- What the search finds is what the name leads to. -/
theorem leads_of_follow {fuel : Nat} {seen : List String} {w i : String}
    (h : follow members base vocab fuel seen w = .ok i) : Leads members base vocab w i := by
  induction fuel generalizing seen w i with
  | zero => cases h
  | succ fuel ih =>
      unfold follow at h
      cases hw : Iri.isKeyword w with
      | true =>
          rw [if_pos hw] at h
          cases h
          exact .keyword hw
      | false =>
          rw [if_neg (by simp [hw])] at h
          split at h
          next => cases h
          cases hparts : Iri.compactParts? w with
          | some parts =>
              obtain ⟨name, rest⟩ := parts
              rw [hparts] at h
              cases htarget : localTarget? members name with
              | some target =>
                  simp only [htarget] at h
                  cases hstem : follow members base vocab fuel (w :: seen) target with
                  | error x => simp [hstem, bind, Except.bind] at h
                  | ok stem =>
                      simp only [hstem, bind, Except.bind, Except.ok.injEq] at h
                      subst h
                      exact .compact hw hparts htarget (ih hstem)
              | none =>
                  simp only [htarget] at h
                  cases hbase : base.iriOf? name with
                  | some stem =>
                      simp only [hbase, Except.ok.injEq] at h
                      subst h
                      exact .inherited hw hparts htarget hbase
                  | none =>
                      simp only [hbase, Except.ok.injEq] at h
                      subst h
                      exact .foreign hw hparts htarget hbase
          | none =>
              rw [hparts] at h
              dsimp only at h
              cases habsolute : Iri.isAbsolute w with
              | true =>
                  rw [if_pos habsolute] at h
                  cases h
                  exact .absolute hw hparts habsolute
              | false =>
                  rw [if_neg (by simp [habsolute])] at h
                  cases htarget : localTarget? members w with
                  | some target =>
                      simp only [htarget] at h
                      by_cases hself : target = w
                      · rw [if_pos hself] at h
                        cases h
                        refine .word hw hparts habsolute ?_
                        rw [htarget]
                        exact fun t ht => (Option.some.inj ht).symm.trans hself
                      · rw [if_neg hself] at h
                        exact .term hw hparts habsolute htarget hself (ih h)
                  | none =>
                      simp only [htarget, Except.ok.injEq] at h
                      subst h
                      exact .word hw hparts habsolute (by simp [htarget])

/-- The vocabulary that an object sets over a context. -/
def vocabOf (base : Context) (members : Object) : Option String :=
  match Assoc.get? members "@vocab" with
  | some v => v.asText?
  | none => base.vocab

/-- A member sets the vocabulary if it is named so, and no term. -/
theorem setKeyword_spec {member : String × Value} (h : setKeyword ctx member = .ok ctx') :
    ctx'.terms = ctx.terms ∧
      ctx'.vocab = if member.1 = "@vocab" then member.2.asText? else ctx.vocab := by
  unfold setKeyword at h
  split at h
  · cases h; exact ⟨rfl, rfl⟩
  · cases h; exact ⟨rfl, rfl⟩
  · cases h
  · cases h; exact ⟨rfl, rfl⟩
  next hstr hnull hfound hbase =>
    cases h
    refine ⟨rfl, (if_neg ?_).symm⟩
    intro hk
    obtain ⟨k, v⟩ := member
    obtain rfl : k = "@vocab" := hk
    cases v with
    | str s => exact hstr s rfl
    | null => exact hnull rfl
    | bool | num | arr | obj => exact hfound _ rfl

/-- The keywords of an object set the vocabulary and define no term. -/
theorem foldlM_setKeyword (hkeys : members.keys.Nodup)
    (h : members.foldlM setKeyword base = .ok ctx) :
    ctx.terms = base.terms ∧ ctx.vocab = vocabOf base members := by
  induction members generalizing base with
  | nil => cases h; exact ⟨rfl, rfl⟩
  | cons member rest ih =>
      obtain ⟨k, v⟩ := member
      obtain ⟨hk, hrest⟩ := List.nodup_cons.mp hkeys
      rw [List.foldlM_cons] at h
      cases hset : setKeyword base (k, v) with
      | error x => simp [hset, bind, Except.bind] at h
      | ok middle =>
          simp only [hset, bind, Except.bind] at h
          obtain ⟨hterms, hvocab⟩ := setKeyword_spec hset
          obtain ⟨hterms', hvocab'⟩ := ih hrest h
          refine ⟨hterms'.trans hterms, hvocab'.trans ?_⟩
          by_cases hname : k = "@vocab"
          · subst hname
            have hnone : Assoc.get? rest "@vocab" = none := Assoc.get?_eq_none_iff.mpr hk
            simp [vocabOf, hnone, Assoc.get?, hvocab]
          · rw [if_neg hname] at hvocab
            simp [vocabOf, Assoc.get?, hname, hvocab]

/-- A member says nothing of another term, and defines its own. -/
theorem setTerm_spec {resolve : String → Except ContextError String} {member : String × Value}
    (h : setTerm resolve ctx member = .ok ctx') :
    (∀ term, member.1 ≠ term → ctx'.get? term = ctx.get? term) ∧
      (Iri.isKeyword member.1 = true → ctx' = ctx) ∧
      (Iri.isKeyword member.1 = false → member.2 ≠ .null →
        ∃ d, define resolve member.1 member.2 = .ok d ∧ ctx'.get? member.1 = some d) := by
  obtain ⟨k, v⟩ := member
  unfold setTerm at h
  dsimp only at h ⊢
  cases hk : Iri.isKeyword k with
  | true =>
      rw [if_pos hk] at h
      cases h
      exact ⟨fun _ _ => rfl, fun _ => rfl, fun hfalse => by simp at hfalse⟩
  | false =>
      rw [if_neg (by simp [hk])] at h
      by_cases hnull : v = .null
      · subst hnull
        cases h
        exact ⟨fun term hterm => Assoc.get?_erase_of_ne _ hterm, nofun, fun _ hv => (hv rfl).elim⟩
      cases hd : define resolve k v with
      | error x => cases v <;> simp_all [bind, Except.bind]
      | ok d =>
          have heq : ctx.insert k d = ctx' := by cases v <;> simp_all [bind, Except.bind]
          subst heq
          refine ⟨fun term hterm => ?_, nofun, fun _ _ => ⟨d, rfl, ?_⟩⟩
          · simp [get?, insert, Assoc.get?_insert, hterm]
          · simp [get?, insert, Assoc.get?_insert]

/-- Each member of an object defines its term. -/
theorem foldlM_setTerm {resolve : String → Except ContextError String}
    (hkeys : members.keys.Nodup) (h : members.foldlM (setTerm resolve) ctx = .ok ctx') :
    (∀ term, (term ∉ members.keys ∨ Iri.isKeyword term = true) → ctx'.get? term = ctx.get? term) ∧
      ∀ member ∈ members, Iri.isKeyword member.1 = false → member.2 ≠ .null →
        ∃ d, define resolve member.1 member.2 = .ok d ∧ ctx'.get? member.1 = some d := by
  induction members generalizing ctx with
  | nil => cases h; exact ⟨fun _ _ => rfl, nofun⟩
  | cons member rest ih =>
      obtain ⟨hk, hrest⟩ := List.nodup_cons.mp hkeys
      rw [List.foldlM_cons] at h
      cases hset : setTerm resolve ctx member with
      | error x => simp [hset, bind, Except.bind] at h
      | ok middle =>
          simp only [hset, bind, Except.bind] at h
          obtain ⟨hother, hkeyword, hown⟩ := setTerm_spec hset
          obtain ⟨hsame, hdefined⟩ := ih hrest h
          constructor
          · rintro term (hterm | hterm)
            · have hne : member.1 ≠ term := fun heq => hterm (heq ▸ List.mem_cons_self)
              rw [hsame term (.inl fun hmem => hterm (List.mem_cons_of_mem _ hmem)),
                hother term hne]
            · rw [hsame term (.inr hterm)]
              by_cases heq : member.1 = term
              · rw [hkeyword (heq ▸ hterm)]
              · exact hother term heq
          · intro m hm hkey hnull
            rcases List.mem_cons.mp hm with rfl | hm
            · obtain ⟨d, hd, hget⟩ := hown hkey hnull
              exact ⟨d, hd, (hsame _ (.inl hk)).trans hget⟩
            · exact hdefined m hm hkey hnull

/-- Giving a term a context of its own changes no target of a term. -/
theorem target_setScope (term : String) (scope : Context) (other : String) :
    ((ctx.setScope term scope).get? other).map Definition.target =
      (ctx.get? other).map Definition.target := by
  unfold setScope get?
  dsimp only
  by_cases h : term = other
  · subst h
    rw [Assoc.get?_modify_self, Option.map_map]
    rfl
  · rw [Assoc.get?_modify_of_ne _ h]

/-- Contexts of terms leave the targets of terms alone. -/
theorem target_of_parseScopes (h : parseScopes ctx members = .ok ctx') (term : String) :
    (ctx'.get? term).map Definition.target = (ctx.get? term).map Definition.target := by
  induction members generalizing ctx with
  | nil => unfold parseScopes at h; cases h; rfl
  | cons member rest ih =>
      obtain ⟨k, v⟩ := member
      cases v with
      | null | bool | num | str | arr => unfold parseScopes at h; exact ih h
      | obj entry =>
          unfold parseScopes at h
          cases hw : parseWrapped ctx entry with
          | none =>
              rw [hw] at h
              exact ih h
          | some result =>
              cases result with
              | error x => simp [hw, bind, Except.bind] at h
              | ok scope =>
                  simp only [hw, bind, Except.bind] at h
                  exact (ih h).trans (target_setScope k scope term)

/-- A wrapped context is the one that stands under `@context`. -/
theorem parseWrapped_eq (base : Context) (members : Object) :
    parseWrapped base members = (Assoc.get? members "@context").map (parse base) := by
  induction members with
  | nil => unfold parseWrapped; rfl
  | cons member rest ih =>
      obtain ⟨k, v⟩ := member
      unfold parseWrapped
      by_cases h : k = "@context"
      · simp [Assoc.get?, h]
      · simp [Assoc.get?, h, ih]

/-- **The terms of an accepted context.**  In an object that wraps no context, each
member that is no keyword and not null defines its term, with the target that its
definition has under all members of the object; a keyword defines nothing. -/
theorem parse_obj (hkeys : members.keys.Nodup) (hwrapped : "@context" ∉ members.keys)
    (h : parse base (.obj members) = .ok ctx) :
    (∀ term, Iri.isKeyword term = true →
        (ctx.get? term).map Definition.target = (base.get? term).map Definition.target) ∧
      ∀ member ∈ members, Iri.isKeyword member.1 = false → member.2 ≠ .null →
        ∃ d, define (resolve members base (vocabOf base members)) member.1 member.2 = .ok d ∧
          (ctx.get? member.1).map Definition.target = some d.target := by
  unfold parse at h
  rw [parseWrapped_eq, Assoc.get?_eq_none_iff.mpr hwrapped] at h
  dsimp only [Option.map_none] at h
  unfold parseTerms at h
  cases hkeyword : members.foldlM setKeyword base with
  | error x => simp [hkeyword, bind, Except.bind] at h
  | ok opened =>
      obtain ⟨hterms, hvocab⟩ := foldlM_setKeyword hkeys hkeyword
      simp only [hkeyword, bind, Except.bind] at h
      cases hset : members.foldlM (setTerm (resolve members base opened.vocab)) opened with
      | error x => simp [hset] at h
      | ok named =>
          simp only [hset] at h
          obtain ⟨hsame, hdefined⟩ := foldlM_setTerm hkeys hset
          constructor
          · intro term hterm
            rw [target_of_parseScopes h, hsame term (.inr hterm)]
            simp [get?, hterms]
          · intro member hmember hkey hnull
            obtain ⟨d, hd, hget⟩ := hdefined member hmember hkey hnull
            refine ⟨d, hvocab ▸ hd, ?_⟩
            rw [target_of_parseScopes h, hget, Option.map_some]

/-- The name that a definition writes for its term, and whether it is one that is
read backwards. -/
def writtenTarget? : Value → Option (String × Bool)
  | .str s => some (s, false)
  | .obj entry =>
    match (Assoc.get? entry "@reverse").bind Value.asText? with
    | some s => some (s, true)
    | none => ((Assoc.get? entry "@id").bind Value.asText?).map fun s => (s, false)
  | _ => none

/-- A definition is reverse if it has a text under `@reverse`. -/
theorem reverseOf_spec {resolve : String → Except ContextError String} {v : Option Value}
    {back : Option String} (h : reverseOf resolve v = .ok back) :
    match v.bind Value.asText? with
    | some w => ∃ i, resolve w = .ok i ∧ back = some i
    | none => back = none := by
  unfold reverseOf at h
  split at h
  next w =>
    cases hw : resolve w with
    | error x => simp [hw, bind, Except.bind] at h
    | ok i =>
        simp only [hw, bind, Except.bind, Except.ok.injEq] at h
        exact ⟨i, hw, h.symm⟩
  next hstr =>
    cases h
    cases v with
    | none => rfl
    | some v =>
        cases v with
        | str w => exact (hstr w rfl).elim
        | null | bool | num | arr | obj => rfl

/-- A text under `@id` gives the IRI. -/
theorem iriOf_text {resolve : String → Except ContextError String} {term w : String}
    {reverse iri : Option String} {v : Option Value} (hw : v.bind Value.asText? = some w)
    (h : iriOf resolve term reverse v = .ok iri) : ∃ i, resolve w = .ok i ∧ iri = some i := by
  obtain ⟨found, rfl, htext⟩ := Option.bind_eq_some_iff.mp hw
  cases found with
  | null | bool | num | arr | obj => cases htext
  | str s =>
      obtain rfl := Option.some.inj htext
      unfold iriOf at h
      cases hs : resolve s with
      | error x => simp [hs, bind, Except.bind] at h
      | ok i =>
          simp only [hs, bind, Except.bind, Except.ok.injEq] at h
          exact ⟨i, rfl, h.symm⟩

/-- A definition maps its term to what the name in it is resolved to. -/
theorem define_target {resolve : String → Except ContextError String} {term : String}
    {v : Value} {d : Definition} {w : String} {reverse : Bool}
    (hw : writtenTarget? v = some (w, reverse)) (h : define resolve term v = .ok d) :
    ∃ i, resolve w = .ok i ∧
      if reverse then d.reverse = some i else d.target = (some i, none) := by
  cases v with
  | null | bool | num | arr => cases hw
  | str s =>
      cases hw
      unfold define at h
      cases hs : resolve w with
      | error x => simp [hs, bind, Except.bind] at h
      | ok i =>
          simp only [hs, bind, Except.bind, Except.ok.injEq] at h
          subst h
          exact ⟨i, rfl, rfl⟩
  | obj entry =>
      unfold define at h
      unfold writtenTarget? at hw
      dsimp only at hw
      cases hreverse : reverseOf resolve (Assoc.get? entry "@reverse") with
      | error x => simp [hreverse, bind, Except.bind] at h
      | ok back =>
          cases hiri : iriOf resolve term back (Assoc.get? entry "@id") with
          | error x => simp [hreverse, hiri, bind, Except.bind] at h
          | ok iri =>
              cases hcoercion : coercionOf resolve (Assoc.get? entry "@type") with
              | error x => simp [hreverse, hiri, hcoercion, bind, Except.bind] at h
              | ok coercion =>
                  simp only [hreverse, hiri, hcoercion, bind, Except.bind, Except.ok.injEq] at h
                  subst h
                  have hback := reverseOf_spec hreverse
                  cases htext : (Assoc.get? entry "@reverse").bind Value.asText? with
                  | some s =>
                      rw [htext] at hback hw
                      cases hw
                      exact hback
                  | none =>
                      rw [htext] at hback hw
                      obtain ⟨s, hs, heq⟩ := Option.map_eq_some_iff.mp hw
                      cases heq
                      obtain ⟨i, hi, rfl⟩ := iriOf_text hs hiri
                      obtain rfl : back = none := hback
                      exact ⟨i, hi, rfl⟩

end Context

end ObjectGraph
