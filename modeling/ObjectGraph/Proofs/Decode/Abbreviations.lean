import ObjectGraph.Compile.Construct
import ObjectGraph.Decode.Graph
import ObjectGraph.Proofs.Context.Returning
import ObjectGraph.Proofs.Decode.PlainContext
import ObjectGraph.Proofs.Json.Equality

/-!
# Abbreviations in rows and graphs

Rows abbreviate an IRI by the namespace map, graphs by the context of the entity, which has
the prefixes of the map as terms.  A context passes over some prefixes that the map takes:
those whose names look like keywords, and those whose stems do not end as namespaces do.
With the others it abbreviates as the map does with only these (`Namespaces.usable`), as
long as the schema has no terms of its own (`Decode.Termless`), reading the context leaves
the stems as they are (`Namespaces.Alone`) and the computed keys stay out of the way
(`Decode.Aside`).

So an IRI has one short form in both kinds of result if the map splits it by a usable
prefix, and, among names without colons, only then (`Decode.abbreviated_alike`).
-/

namespace ObjectGraph

open Json (Value Object)

namespace Namespaces

variable {ns : Namespaces} {iri name stem rest : String}

/-- A prefix that contexts abbreviate by, too: its name does not look like a keyword, and
its stem ends as namespaces do. -/
def Usable (e : String × String) : Prop :=
  Iri.isKeyword e.1 = false ∧ Iri.isNamespace e.2 = true

instance : DecidablePred Usable :=
  fun _ => inferInstanceAs (Decidable (_ ∧ _))

/-- A map without the prefixes that contexts pass over. -/
def usable (ns : Namespaces) : Namespaces :=
  ⟨ns.entries.filter fun e => decide (Usable e), ns.sorted.filter _⟩

/-- The prefix that an IRI is split by, if any, is usable. -/
def Shared (ns : Namespaces) (iri : String) : Prop :=
  ∀ name stem rest, Longest ns iri name stem rest → Usable (name, stem)

/-- Each stem is an IRI that the context of a map leaves as it is: neither a prefix of the
map, its own included, nor a computed key reads it as a compact one. -/
structure Alone (ns : Namespaces) (keys : List String) : Prop where
  absolute : ∀ e ∈ ns.entries, Iri.isAbsolute e.2 = true
  foreign : ∀ e ∈ ns.entries, Iri.isKeyword e.1 = false → ∀ name rest,
    Iri.compactParts? e.2 = some (name, rest) → ns.get? name = none ∧ name ∉ keys

/-- The usable prefixes of a map are those of its prefixes that are usable. -/
theorem mem_usable {e : String × String} :
    e ∈ ns.usable.entries ↔ e ∈ ns.entries ∧ Usable e := by
  simp [usable]

/-- An IRI that is split by a usable prefix is split by it without the others. -/
theorem split?_usable (h : ns.Shared iri) : ns.usable.split? iri = ns.split? iri := by
  cases hsplit : ns.split? iri with
  | none =>
      rw [← Option.not_isSome_iff_eq_none, split?_isSome_iff]
      rintro ⟨e, he, rest, hsplits⟩
      have hsome := split?_isSome_iff.mpr ⟨e, (mem_usable.mp he).1, rest, hsplits⟩
      rw [hsplit] at hsome
      cases hsome
  | some parts =>
      obtain ⟨stem, hlongest⟩ := split?_eq_some_iff.mp hsplit
      refine split?_eq_some_iff.mpr ⟨stem, ?_, hlongest.splits, ?_, ?_⟩
      · exact mem_usable.mpr ⟨hlongest.mem, h _ _ _ hlongest⟩
      · exact fun e he => hlongest.longest e (mem_usable.mp he).1
      · exact fun e he => hlongest.first e (mem_usable.mp he).1

/-- A scheme in front of a colon is a readable name. -/
theorem readable_of_isAbsolute (hcolon : ':' ∉ name.toList)
    (h : Iri.isAbsolute (name ++ ":") = true) : Readable name := by
  have hfree : ∀ c ∈ name.toList, (c != ':') = true := by
    intro c hc
    simpa using fun heq : c = ':' => hcolon (heq ▸ hc)
  have hat : Iri.atColon? (name ++ ":") = some (name.toList, []) := by
    unfold Iri.atColon?
    rw [show (name ++ ":").toList = name.toList ++ [':'] by simp,
      List.dropWhile_append_of_pos hfree, List.takeWhile_append_of_pos hfree]
    simp
  unfold Iri.isAbsolute at h
  rw [hat] at h
  cases hname : name.toList with
  | nil => simp [hname] at h
  | cons c scheme =>
      simp only [hname, Bool.and_eq_true, List.all_eq_true] at h
      refine ⟨?_, hcolon, ?_⟩
      · rintro rfl
        cases hname
      · rw [hname]
        intro hslash
        rcases List.mem_cons.mp hslash with rfl | hslash
        · exact absurd h.1 (by decide)
        · exact absurd (h.2 '/' hslash) (by decide)

/-- An IRI that has its short form without the prefixes that are passed over is split by
one of the others. -/
theorem shared_of_abbreviate {keys : List String} (halone : ns.Alone keys)
    (hcolon : ∀ e ∈ ns.entries, ':' ∉ e.1.toList)
    (h : ns.usable.abbreviate iri = ns.abbreviate iri) : ns.Shared iri := by
  intro name stem rest hlongest
  have hget : ns.get? name = some stem := get?_eq_some.mpr hlongest.mem
  have hsplit := split?_eq_some_iff.mpr ⟨stem, hlongest⟩
  have hshort : ns.abbreviate iri = name ++ ":" ++ rest := by rw [abbreviate, hsplit]
  cases husable : ns.usable.split? iri with
  | none =>
      -- The IRI is its own short form, so that its stem would be the prefix itself.
      have hself : stem ++ rest = name ++ ":" ++ rest := by
        rw [hlongest.splits.append, ← hshort, ← h, abbreviate, husable]
      have hstem : stem = name ++ ":" := (String.append_left_inj rest).mp hself
      have habsolute := halone.absolute _ hlongest.mem
      have hname := readable_of_isAbsolute (hcolon _ hlongest.mem) (hstem ▸ habsolute)
      have hparts : Iri.compactParts? stem = some (name, "") :=
        Iri.compactParts?_eq_some_iff.mpr ⟨by rw [hstem, String.append_empty], hname, rfl⟩
      have hword : Iri.isKeyword name = false :=
        Iri.isKeyword_of_parts hparts ▸ Iri.isKeyword_of_isAbsolute habsolute
      rw [(halone.foreign _ hlongest.mem hword name "" hparts).1] at hget
      cases hget
  | some parts =>
      obtain ⟨name', rest'⟩ := parts
      obtain ⟨stem', hlongest'⟩ := split?_eq_some_iff.mp husable
      obtain ⟨hmem, hkept⟩ := mem_usable.mp hlongest'.mem
      have hsame : name' ++ ":" ++ rest' = name ++ ":" ++ rest := by
        rw [← hshort, ← h, abbreviate, husable]
      rcases Iri.append_colon_eq hsame (hcolon _ hmem) with ⟨rfl, -⟩ | ⟨inner, rfl, -⟩
      · rw [get?_eq_some.mpr hmem] at hget
        exact Option.some.inj hget ▸ hkept
      · exact (hcolon _ hlongest.mem (by simp)).elim

end Namespaces

namespace Decode

/-- The computed keys of an entity stay out of the way of its prefixes: none has the name of
one, wraps the context or sets the vocabulary, and the local IRI of each that can be a term
is no namespace and not read under a computed key. -/
structure Aside (ns : Namespaces) (config : Config) (keys : List String) : Prop where
  new : ∀ key ∈ keys, ns.get? key = none
  notContext : "@context" ∉ keys
  notVocab : "@vocab" ∉ keys
  absolute : ∀ key ∈ keys, Iri.isKeyword key = false →
    Iri.isAbsolute (config.localIri key) = true
  apart : ∀ key ∈ keys, Iri.isKeyword key = false → ∀ name rest,
    Iri.compactParts? (config.localIri key) = some (name, rest) → name ∉ keys
  others : ∀ key ∈ keys, Iri.isKeyword key = false →
    Iri.isNamespace (ns.expand (config.localIri key)) = false

/-- A schema's context without terms of its own: all its members are keywords, the
vocabulary is a text or null, and the base carries no context. -/
structure Termless (context : Object) : Prop where
  keywords : ∀ member ∈ context, Iri.isKeyword member.1 = true
  vocab : ∀ v, ("@vocab", v) ∈ context → v = .null ∨ ∃ s, v = .str s
  base : ∀ entry, ("@base", .obj entry) ∈ context → Assoc.get? entry "@context" = none

/-! ### Words and keywords -/

/-- Setting a key that is not in front leaves what is in front. -/
theorem insert_append {α : Type} {front : Assoc α} {key : String}
    (h : key ∉ Assoc.keys front) (behind : Assoc α) (value : α) :
    Assoc.insert (front ++ behind) key value = front ++ Assoc.insert behind key value := by
  induction front with
  | nil => rfl
  | cons e rest ih =>
      obtain ⟨k, v⟩ := e
      obtain ⟨hne, hrest⟩ : k ≠ key ∧ key ∉ Assoc.keys rest := by
        simpa [Assoc.keys, eq_comm] using h
      simp [Assoc.insert, hne, ih hrest]

/-- Setting a keyword leaves the members that are words. -/
theorem wordMembers_insert_keyword (context : Object) {key : String} (v : Value)
    (h : Iri.isKeyword key = true) :
    Context.wordMembers (context.insert key v) = Context.wordMembers context :=
  Assoc.filter_insert context (fun k => !Iri.isKeyword k) v (by simp [h])

/-- Setting a word sets it among the words. -/
theorem wordMembers_insert (context : Object) {key : String} (v : Value)
    (h : Iri.isKeyword key = false) :
    Context.wordMembers (context.insert key v) =
      Assoc.insert (Context.wordMembers context) key v := by
  unfold Context.wordMembers
  induction context with
  | nil => simp [Assoc.insert, h]
  | cons e rest ih =>
      obtain ⟨k, w⟩ := e
      by_cases hkey : k = key
      · subst hkey
        simp [Assoc.insert, h]
      · cases hword : Iri.isKeyword k <;> simp [Assoc.insert, hkey, hword, ih]

/-- A word is looked up among the members for words as in the context. -/
theorem get?_wordMembers (context : Object) {name : String} (h : Iri.isKeyword name = false) :
    Assoc.get? (Context.wordMembers context) name = context.get? name :=
  Assoc.get?_filter context (fun k => !Iri.isKeyword k) (by simp [h])

/-- A schema's keywords leave the words of a context. -/
theorem wordMembers_enterTerms (schema : Schema) {terms : Object}
    (h : ∀ member ∈ terms, Iri.isKeyword member.1 = true) (context : Object) :
    Context.wordMembers (terms.foldl (enterTerm schema) context) =
      Context.wordMembers context := by
  induction terms generalizing context with
  | nil => rfl
  | cons member rest ih =>
      obtain ⟨hmember, hrest⟩ := List.forall_mem_cons.mp h
      rw [List.foldl_cons, ih hrest, enterTerm_eq]
      cases enteredTerm? schema member with
      | none => rfl
      | some v => exact wordMembers_insert_keyword context v hmember

/-- Of a schema's keywords, the vocabulary and the base are entered as they are. -/
theorem mem_enterTerms (schema : Schema) {terms : Object}
    (h : ∀ member ∈ terms, Iri.isKeyword member.1 = true) {context : Object}
    {m : String × Value} (hm : m ∈ terms.foldl (enterTerm schema) context) :
    m ∈ context ∨ m ∈ terms ∧ (m.1 = "@vocab" ∨ m.1 = "@base") := by
  induction terms generalizing context with
  | nil => exact .inl hm
  | cons member rest ih =>
      obtain ⟨hmember, hrest⟩ := List.forall_mem_cons.mp h
      rcases ih hrest hm with hm | ⟨hm, hkey⟩
      · unfold enterTerm at hm
        simp only [hmember, if_true] at hm
        split at hm
        next hkey =>
          rcases Assoc.mem_insert hm with hm | rfl
          · exact .inl hm
          · exact .inr ⟨List.mem_cons_self, hkey⟩
        next => exact .inl hm
      · exact .inr ⟨List.mem_cons_of_mem _ hm, hkey⟩

/-- The computed keys among the words of a context are those that are words. -/
theorem wordMembers_computed (config : Config) (keys : List String) (context : Object) :
    Context.wordMembers (keys.foldl
        (fun context key => context.insert key (computedTerm config key)) context) =
      (keys.filter fun key => !Iri.isKeyword key).foldl
        (fun context key => context.insert key (computedTerm config key))
        (Context.wordMembers context) := by
  induction keys generalizing context with
  | nil => rfl
  | cons key rest ih =>
      rw [List.foldl_cons, ih]
      cases hword : Iri.isKeyword key with
      | true =>
          rw [List.filter_cons_of_neg (by simp [hword]),
            wordMembers_insert_keyword context _ hword]
      | false =>
          rw [List.filter_cons_of_pos (by simp [hword]), wordMembers_insert context _ hword,
            List.foldl_cons]

/-- A member of a context with computed keys stood there before, or is one of them. -/
theorem mem_computed (config : Config) {keys : List String} {context : Object}
    {m : String × Value}
    (hm : m ∈ keys.foldl (fun context key => context.insert key (computedTerm config key))
      context) :
    m ∈ context ∨ m.1 ∈ keys ∧ m.2 = computedTerm config m.1 := by
  induction keys generalizing context with
  | nil => exact .inl hm
  | cons key rest ih =>
      rcases ih hm with hm | ⟨hkey, hvalue⟩
      · rcases Assoc.mem_insert hm with hm | rfl
        · exact .inl hm
        · exact .inr ⟨List.mem_cons_self, rfl⟩
      · exact .inr ⟨List.mem_cons_of_mem _ hkey, hvalue⟩

/-- New computed keys come behind what is there. -/
theorem foldl_computed (config : Config) {keys : List String} {front : Object}
    (h : ∀ key ∈ keys, key ∉ front.keys) (behind : Object) :
    ∃ computed : Object,
      keys.foldl (fun context key => context.insert key (computedTerm config key))
        (front ++ behind) = front ++ computed ∧
      ∀ m ∈ computed, m ∈ behind ∨ m.1 ∈ keys ∧ m.2 = computedTerm config m.1 := by
  induction keys generalizing behind with
  | nil => exact ⟨behind, rfl, fun m hm => .inl hm⟩
  | cons key rest ih =>
      obtain ⟨hkey, hrest⟩ := List.forall_mem_cons.mp h
      obtain ⟨computed, hfold, hcomputed⟩ :=
        ih hrest (Assoc.insert behind key (computedTerm config key))
      refine ⟨computed, by rw [List.foldl_cons, insert_append hkey, hfold], fun m hm => ?_⟩
      rcases hcomputed m hm with hm | ⟨hmem, hvalue⟩
      · rcases Assoc.mem_insert hm with hm | rfl
        · exact .inl hm
        · exact .inr ⟨List.mem_cons_self, rfl⟩
      · exact .inr ⟨List.mem_cons_of_mem _ hmem, hvalue⟩

section

variable {ns : Namespaces} {config : Config} {p : Part}
  (hschema : Termless p.entity.schema.context)

include hschema

/-- A member of a context is a prefix, the vocabulary or the base of the schema, or a
computed key. -/
theorem mem_entityContext {m : String × Value} (hm : m ∈ entityContext ns config p) :
    m ∈ ns.members ∨
      (m ∈ p.entity.schema.context ∧ (m.1 = "@vocab" ∨ m.1 = "@base")) ∨
      (m.1 ∈ p.fragment.bindVars.keys ∧ m.2 = computedTerm config m.1) := by
  rcases mem_computed config hm with hm | hm
  · exact (mem_enterTerms _ hschema.keywords hm).imp_right .inl
  · exact .inr (.inr hm)

/-- The words of a context are the prefixes that are words, and then computed keys. -/
theorem wordMembers_entityContext (haside : Aside ns config p.fragment.bindVars.keys) :
    ∃ computed : Object,
      Context.wordMembers (entityContext ns config p) =
        Context.wordMembers ns.members ++ computed ∧
      ∀ m ∈ computed, m.1 ∈ p.fragment.bindVars.keys ∧ Iri.isKeyword m.1 = false ∧
        m.2 = computedTerm config m.1 := by
  have hnew : ∀ key ∈ p.fragment.bindVars.keys.filter fun key => !Iri.isKeyword key,
      key ∉ Assoc.keys (Context.wordMembers ns.members) := by
    intro key hkey
    obtain ⟨hkey, hword⟩ := List.mem_filter.mp hkey
    rw [← Assoc.get?_eq_none_iff, get?_wordMembers _ (by simpa using hword),
      Namespaces.get?_members, haside.new key hkey]
    rfl
  obtain ⟨computed, hfold, hcomputed⟩ := foldl_computed config hnew []
  rw [List.append_nil] at hfold
  refine ⟨computed, ?_, fun m hm => ?_⟩
  · rw [← hfold]
    refine (wordMembers_computed config _ _).trans ?_
    rw [wordMembers_enterTerms _ hschema.keywords]
    rfl
  · obtain ⟨hkey, hvalue⟩ := (hcomputed m hm).resolve_left List.not_mem_nil
    obtain ⟨hkey, hword⟩ := List.mem_filter.mp hkey
    exact ⟨hkey, by simpa using hword, hvalue⟩

/-- A word stands for a local IRI if it is a computed key, else for a stem. -/
theorem localTarget?_entityContext {name : String} (hname : Iri.isKeyword name = false) :
    Context.localTarget? (entityContext ns config p) name =
      if name ∈ p.fragment.bindVars.keys then some (config.localIri name) else ns.get? name := by
  have hget : Assoc.get? (entityContext ns config p) name =
      if name ∈ p.fragment.bindVars.keys then some (computedTerm config name)
      else (ns.get? name).map .str := by
    refine (get?_foldl_computed config p.fragment.bindVars.keys _ name).trans ?_
    rw [← get?_wordMembers _ hname, wordMembers_enterTerms _ hschema.keywords,
      get?_wordMembers _ hname]
    exact congrArg _ (ns.get?_members name)
  unfold Context.localTarget?
  rw [hget]
  by_cases hkey : name ∈ p.fragment.bindVars.keys
  · rw [if_pos hkey, if_pos hkey]
    rfl
  · rw [if_neg hkey, if_neg hkey]
    cases ns.get? name <;> rfl

variable (halone : ns.Alone p.fragment.bindVars.keys)
  (haside : Aside ns config p.fragment.bindVars.keys)

include halone in
/-- A stem stands for itself. -/
theorem own_stem {e : String × String} (he : e ∈ ns.entries) (hword : Iri.isKeyword e.1 = false) :
    Context.Own (entityContext ns config p) .empty e.2 where
  absolute := halone.absolute e he
  foreign := fun name rest hparts => by
    obtain ⟨hname, hkey⟩ := halone.foreign e he hword name rest hparts
    have hisWord : Iri.isKeyword name = false :=
      Iri.isKeyword_of_parts hparts ▸ Iri.isKeyword_of_isAbsolute (halone.absolute e he)
    exact ⟨by rw [localTarget?_entityContext hschema hisWord, if_neg hkey, hname], rfl⟩

include halone haside in
/-- A local IRI leads where the namespace map expands it to. -/
theorem settled_local {key : String} (hkey : key ∈ p.fragment.bindVars.keys)
    (hkeyword : Iri.isKeyword key = false) :
    Context.Settled (entityContext ns config p) .empty (config.localIri key) ∧
      ∀ vocab, Context.resolve (entityContext ns config p) .empty vocab (config.localIri key) =
        .ok (ns.expand (config.localIri key)) := by
  have habsolute := haside.absolute key hkey hkeyword
  have hword := Iri.isKeyword_of_isAbsolute habsolute
  have hself : (∀ name rest, Iri.compactParts? (config.localIri key) = some (name, rest) →
        ns.get? name = none) →
      Context.Own (entityContext ns config p) .empty (config.localIri key) := by
    refine fun hforeign => ⟨habsolute, fun name rest hparts => ⟨?_, rfl⟩⟩
    rw [localTarget?_entityContext hschema (Iri.isKeyword_of_parts hparts ▸ hword),
      if_neg (haside.apart key hkey hkeyword name rest hparts), hforeign name rest hparts]
  cases hparts : Iri.compactParts? (config.localIri key) with
  | none =>
      have hown := hself (by simp [hparts])
      refine ⟨.own hown, fun vocab => ?_⟩
      rw [show ns.expand (config.localIri key) = config.localIri key by
        simp [Namespaces.expand, hparts]]
      exact Context.follow_own hown (by simp) _
  | some parts =>
      obtain ⟨name, rest⟩ := parts
      cases hstem : ns.get? name with
      | none =>
          have hown := hself fun name' rest' hparts' => by
            rw [hparts] at hparts'
            cases hparts'
            exact hstem
          refine ⟨.own hown, fun vocab => ?_⟩
          rw [show ns.expand (config.localIri key) = config.localIri key by
            simp [Namespaces.expand, hparts, hstem]]
          exact Context.follow_own hown (by simp) _
      | some stem =>
          have hname : Iri.isKeyword name = false := Iri.isKeyword_of_parts hparts ▸ hword
          have hown : Context.Own (entityContext ns config p) .empty stem :=
            own_stem hschema halone (Namespaces.get?_eq_some.mp hstem) hname
          have htarget : Context.localTarget? (entityContext ns config p) name = some stem := by
            rw [localTarget?_entityContext hschema hname,
              if_neg (haside.apart key hkey hkeyword name rest hparts), hstem]
          refine ⟨.compact hword hparts htarget hown, fun vocab => ?_⟩
          rw [show ns.expand (config.localIri key) = stem ++ rest by
            simp [Namespaces.expand, hparts, hstem]]
          exact Context.follow_compact hword hparts htarget hown (by simp) (by simp) _

include halone haside in
/-- Every name under the context is followed to its end. -/
theorem resolve_entityContext (vocab : Option String) (value : String) :
    ∃ iri, Context.resolve (entityContext ns config p) .empty vocab value = .ok iri := by
  refine Context.resolve_total (fun name target hname htarget => ?_) value
  rw [localTarget?_entityContext hschema hname] at htarget
  split at htarget
  next hkey =>
    obtain rfl := Option.some.inj htarget
    exact (settled_local hschema halone haside hkey hname).1
  next => exact .own (own_stem hschema halone (Namespaces.get?_eq_some.mp htarget) hname)

include halone haside in
/-- A computed key has a term that stands for its local IRI. -/
theorem define_computed (vocab : Option String) {key : String}
    (hkey : key ∈ p.fragment.bindVars.keys) (hkeyword : Iri.isKeyword key = false) :
    ∃ d, Context.define (Context.resolve (entityContext ns config p) .empty vocab) key
        (computedTerm config key) = .ok d ∧
      d.target = (some (ns.expand (config.localIri key)), none) := by
  obtain ⟨boolean, hboolean⟩ := resolve_entityContext hschema halone haside vocab "xsd:boolean"
  have hlocal := (settled_local hschema halone haside hkey hkeyword).2 vocab
  refine ⟨⟨some (ns.expand (config.localIri key)), some (.datatype boolean), none, none, none⟩,
    ?_, rfl⟩
  simp [Context.define, computedTerm, Assoc.get?, Context.reverseOf, Context.iriOf,
    Context.coercionOf, Context.containerOf?, hlocal, hboolean, bind, Except.bind]

/-! ### Members -/

include haside in
/-- The vocabulary, if there is one, is a text or null. -/
theorem opened_entityContext :
    ∃ opened, (entityContext ns config p).foldlM Context.setKeyword .empty = .ok opened := by
  refine Context.exists_opened (fun member hmember hvocab => ?_) _
  rcases mem_entityContext hschema hmember with hmember | ⟨hmember, -⟩ | ⟨hkey, -⟩
  · obtain ⟨e, -, rfl⟩ := List.mem_map.mp hmember
    exact .inr ⟨e.2, rfl⟩
  · exact hschema.vocab _ (hvocab ▸ hmember)
  · exact (haside.notVocab (hvocab ▸ hkey)).elim

include halone haside in
/-- Every member that is no keyword defines a term. -/
theorem define_entityContext (vocab : Option String) {member : String × Value}
    (hmember : member ∈ entityContext ns config p) (hword : Iri.isKeyword member.1 = false) :
    ∃ d, Context.define (Context.resolve (entityContext ns config p) .empty vocab) member.1
      member.2 = .ok d := by
  rcases mem_entityContext hschema hmember with hstem | ⟨hterm, -⟩ | ⟨hkey, hvalue⟩
  · obtain ⟨e, he, rfl⟩ := List.mem_map.mp hstem
    exact ⟨_, Context.define_own (own_stem hschema halone he hword) e.1⟩
  · rw [hschema.keywords _ hterm] at hword
    cases hword
  · rw [hvalue]
    obtain ⟨d, hd, -⟩ := define_computed hschema halone haside vocab hkey hword
    exact ⟨d, hd⟩

/-- No member carries a context. -/
theorem unscoped_entityContext {key : String} {entry : Object}
    (hmember : (key, .obj entry) ∈ entityContext ns config p) :
    Assoc.get? entry "@context" = none := by
  rcases mem_entityContext hschema hmember with hmember | ⟨hmember, rfl | rfl⟩ | ⟨-, hvalue⟩
  · obtain ⟨e, -, heq⟩ := List.mem_map.mp hmember
    cases heq
  · obtain h | ⟨s, h⟩ := hschema.vocab _ hmember <;> cases h
  · exact hschema.base entry hmember
  · rw [Value.obj.inj hvalue]
    rfl

include haside in
/-- No member wraps the context, unless a prefix does. -/
theorem unwrapped_entityContext (hcontext : ns.get? "@context" = none) :
    "@context" ∉ Assoc.keys (entityContext ns config p) := by
  intro hmem
  obtain ⟨⟨key, v⟩, hmember, hkey⟩ := List.mem_map.mp hmem
  obtain rfl : key = "@context" := hkey
  rcases mem_entityContext hschema hmember with hmember | ⟨-, h | h⟩ | ⟨hkey, -⟩
  · have hkeys := List.mem_map_of_mem (f := Prod.fst) hmember
    rw [show ns.members.map Prod.fst = ns.members.keys from rfl] at hkeys
    have hget := ns.get?_members "@context"
    rw [hcontext, Option.map_none, Assoc.get?_eq_none_iff] at hget
    exact hget hkeys
  · exact absurd h (show "@context" ≠ "@vocab" by decide)
  · exact absurd h (show "@context" ≠ "@base" by decide)
  · exact haside.notContext hkey

include halone in
/-- The terms of the context: the prefixes that are words, then those of computed keys. -/
theorem defined_entityContext {computed : Object} (vocab : Option String)
    (hwords : Context.wordMembers (entityContext ns config p) =
      Context.wordMembers ns.members ++ computed) :
    (Context.wordMembers (entityContext ns config p)).map (fun m =>
        (m.1, Context.defined (Context.resolve (entityContext ns config p) .empty vocab) m)) =
      (ns.entries.filter fun e => !Iri.isKeyword e.1).map
          (fun e => (e.1, Definition.ofIri e.2)) ++
        computed.map fun m =>
          (m.1, Context.defined (Context.resolve (entityContext ns config p) .empty vocab) m) := by
  have hprefixes : Context.wordMembers ns.members =
      (ns.entries.filter fun e => !Iri.isKeyword e.1).map fun e => (e.1, .str e.2) := by
    rw [Context.wordMembers, Namespaces.members, List.filter_map]
    rfl
  rw [hwords, List.map_append, hprefixes, List.map_map]
  refine congrArg (· ++ _) (List.map_congr_left fun e he => ?_)
  obtain ⟨hmem, hword⟩ := List.mem_filter.mp he
  have hown : Context.Own (entityContext ns config p) .empty e.2 :=
    own_stem hschema halone hmem (by simpa using hword)
  rw [Function.comp_apply, Context.defined_eq (Context.define_own hown e.1)]

/-! ### The context -/

include halone haside in
/-- **The context is accepted**, and its terms are the prefixes that are words, and then
others that are no namespaces. -/
theorem exists_prefixContext (hcontext : ns.get? "@context" = none) :
    ∃ ctx others, Context.parse .empty (.obj (entityContext ns config p)) = .ok ctx ∧
      ctx.exactTerms =
        (ns.entries.filter fun e => !Iri.isKeyword e.1).map (fun e => (e.2, e.1)) ++ others ∧
      ∀ e ∈ others, Iri.isNamespace e.1 = false := by
  obtain ⟨computed, hwords, hcomputed⟩ := wordMembers_entityContext hschema haside
  obtain ⟨opened, hopened⟩ := opened_entityContext hschema haside
  have hparse := Context.parse_defined nodup_entityContext
    (unwrapped_entityContext hschema haside hcontext) hopened
    (fun member => define_entityContext hschema halone haside opened.vocab)
    fun key entry => unscoped_entityContext hschema
  have hterms := defined_entityContext hschema halone opened.vocab hwords
  refine ⟨_, _, hparse, Context.exactTerms_prefixes hterms, fun e he => ?_⟩
  obtain ⟨t, ht, -, hmaps⟩ := Context.mem_exactTerms.mp he
  obtain ⟨m, hm, rfl⟩ := List.mem_map.mp ht
  obtain ⟨hkey, hword, hvalue⟩ := hcomputed m hm
  obtain ⟨d, hd, htarget⟩ := define_computed hschema halone haside opened.vocab hkey hword
  rw [← hvalue] at hd
  rw [Context.defined_eq hd] at hmaps
  have hiri : ns.expand (config.localIri m.1) = e.1 :=
    Option.some.inj ((Prod.mk.inj htarget).1.symm.trans hmaps.2)
  exact hiri ▸ haside.others m.1 hkey hword

include halone haside in
/-- Under the context an identity has the short form that the usable prefixes give it. -/
theorem exists_abbreviating (hcontext : ns.get? "@context" = none) :
    ∃ ctx, Context.parse .empty (.obj (entityContext ns config p)) = .ok ctx ∧
      ∀ iri, ctx.compactId iri = ns.usable.abbreviate iri := by
  obtain ⟨ctx, others, hparse, hexact, hothers⟩ :=
    exists_prefixContext hschema halone haside hcontext
  refine ⟨ctx, hparse, fun iri => ?_⟩
  have hforms : ctx.compactForms iri =
      ns.usable.entries.filterMap (Namespaces.candidate? iri) := by
    rw [Context.compactForms_prefixes hexact hothers, List.filter_filter]
    refine congrArg (List.filterMap _) (List.filter_congr fun e _ => ?_)
    rw [Bool.eq_iff_iff, decide_eq_true_iff]
    simp [Namespaces.Usable, and_comm]
  unfold Context.compactId Context.compactForm? Namespaces.abbreviate Namespaces.split?
  rw [hforms]
  cases Iri.shortest? (ns.usable.entries.filterMap (Namespaces.candidate? iri)) <;> rfl

omit hschema in
/-- The identity of a node stands under `@id` if no property is written there. -/
theorem get?_compact_id {ctx : Context} {n : Node}
    (h : ∀ property ∈ n.properties, (Node.compactProperty ctx property.1 property.2).1 ≠ "@id") :
    Assoc.get? (n.compact ctx) "@id" = some (.str (ctx.compactId n.id)) := by
  unfold Node.compact
  refine List.foldlRecOn
    (motive := fun object : Object => object.get? "@id" = some (.str (ctx.compactId n.id)))
    _ _ (by simp [Assoc.get?]) ?_
  intro object hobject property hproperty
  dsimp only
  rw [Assoc.get?_insert, if_neg (h property hproperty)]
  exact hobject

include halone haside in
/-- **Rows and graphs abbreviate alike** what the namespace map splits by a usable prefix,
and, where no prefix name has a colon, nothing else.  An identity is then the same text in
both. -/
theorem abbreviated_alike (hcontext : ns.get? "@context" = none) :
    ∃ ctx, Context.parse .empty (.obj (entityContext ns config p)) = .ok ctx ∧
      (∀ iri, ns.Shared iri → ctx.compactId iri = ns.abbreviate iri) ∧
      ((∀ e ∈ ns.entries, ':' ∉ e.1.toList) →
        ∀ iri, ctx.compactId iri = ns.abbreviate iri → ns.Shared iri) ∧
      (∀ iri, ctx.compactId iri = ns.usable.abbreviate iri) ∧
      ∀ n : Node, ns.Shared n.id →
        (∀ property ∈ n.properties,
          (Node.compactProperty ctx property.1 property.2).1 ≠ "@id") →
        ∀ kind, Assoc.get? (n.compact ctx) "@id" = some (binding ns kind (.uri n.id)) := by
  obtain ⟨ctx, hparse, hcompact⟩ := exists_abbreviating hschema halone haside hcontext
  have halike : ∀ iri, ns.Shared iri → ctx.compactId iri = ns.abbreviate iri := by
    intro iri hshared
    rw [hcompact, Namespaces.abbreviate, Namespaces.split?_usable hshared, Namespaces.abbreviate]
  refine ⟨ctx, hparse, halike, fun hcolon iri h => ?_, hcompact,
    fun n hshared hproperties kind => ?_⟩
  · exact Namespaces.shared_of_abbreviate halone hcolon ((hcompact iri).symm.trans h)
  · rw [get?_compact_id hproperties, halike n.id hshared]
    rfl

end

/-! ## Books -/

/-- Books that say by some computed keys whether somebody wrote them, under a context of
their own. -/
def booksWith (context : Object) (computed : List String) : Collection where
  entities :=
    [{ index := 0
       schema := { targetClass := some "http://example.org/Book", context := context }
       conditions := computed.map fun key =>
         (key, .computed .exist [⟨"?by", "http://example.org/wrote", "?eIri0"⟩]) }]

/-- A context that has a vocabulary and a base only. -/
def bareContext : Object :=
  [("@vocab", .str "http://example.org/vocab/"), ("@base", .null)]

/-- The bare context has no term. -/
theorem termless_bareContext : Termless bareContext := by
  refine ⟨by decide, fun v hv => .inr ?_, fun entry hentry => ?_⟩
  · exact ⟨"http://example.org/vocab/", by simpa [bareContext] using hv⟩
  · simp [bareContext] at hentry

/-- A namespace beside a stem that is none. -/
def bookPrefixes : Namespaces :=
  Namespaces.exampleOrg.insert "isbn" "urn:isbn:"

/-- Books are abbreviated alike under the namespace, and not by the other stem. -/
theorem abbreviated_alike_books :
    ∃ plan ∈ ((booksWith bareContext ["known"]).compileConstruct bookPrefixes {}).toOption,
      ∃ p ∈ plan.parts, ∃ ctx,
        Context.parse .empty (.obj (entityContext bookPrefixes {} p)) = .ok ctx ∧
          ctx.compactId "http://example.org/a" = "ex:a" ∧
          ctx.compactId "urn:isbn:0306406152" ≠
            bookPrefixes.abbreviate "urn:isbn:0306406152" := by
  have hplan : ∃ plan ∈
        ((booksWith bareContext ["known"]).compileConstruct bookPrefixes {}).toOption,
      ∃ p ∈ plan.parts, p.entity.schema.context = bareContext ∧
        p.fragment.bindVars.keys = ["known"] := by
    decide +kernel
  obtain ⟨plan, hplan, p, hp, hcontext, hkeys⟩ := hplan
  have hschema : Termless p.entity.schema.context := hcontext ▸ termless_bareContext
  have halone : bookPrefixes.Alone p.fragment.bindVars.keys := by
    rw [hkeys]
    have hforeign : ∀ e ∈ bookPrefixes.entries, ∀ parts ∈ Iri.compactParts? e.2,
        bookPrefixes.get? parts.1 = none ∧ parts.1 ∉ ["known"] := by
      decide +kernel
    exact ⟨by decide +kernel, fun e he _ name rest hparts => hforeign e he (name, rest) hparts⟩
  have haside : Aside bookPrefixes {} p.fragment.bindVars.keys := by
    rw [hkeys]
    have hapart : ∀ key ∈ ["known"], ∀ parts ∈ Iri.compactParts? (Config.localIri {} key),
        parts.1 ∉ ["known"] := by
      decide +kernel
    exact ⟨by decide +kernel, by decide, by decide, by decide +kernel,
      fun key hkey _ name rest hparts => hapart key hkey (name, rest) hparts,
      by decide +kernel⟩
  obtain ⟨ctx, hparse, halike, honly, -⟩ :=
    abbreviated_alike hschema halone haside (by decide +kernel)
  have hshared : bookPrefixes.Shared "http://example.org/a" := by
    intro name stem rest h
    have hsplit := Namespaces.split?_eq_some_iff.mpr ⟨stem, h⟩
    rw [show bookPrefixes.split? "http://example.org/a" = some ("ex", "a") by decide +kernel]
      at hsplit
    cases hsplit
    have hstem := Namespaces.get?_eq_some.mpr h.mem
    rw [show bookPrefixes.get? "ex" = some "http://example.org/" by decide +kernel] at hstem
    cases hstem
    exact ⟨by decide, by decide +kernel⟩
  refine ⟨plan, hplan, p, hp, ctx, hparse, ?_, fun hsame => ?_⟩
  · rw [halike _ hshared]
    decide +kernel
  · -- The prefix of the longest stem is not usable.
    have hlongest := Namespaces.split?_eq_some_iff.mp
      (show bookPrefixes.split? "urn:isbn:0306406152" = some ("isbn", "0306406152") by
        decide +kernel)
    obtain ⟨stem, h⟩ := hlongest
    have hstem := Namespaces.get?_eq_some.mpr h.mem
    rw [show bookPrefixes.get? "isbn" = some "urn:isbn:" by decide +kernel] at hstem
    cases hstem
    have husable := (honly (by decide +kernel) _ hsame _ _ _ h).2
    revert husable
    decide +kernel

/-- A stem that is no namespace, a name that looks like a keyword, a stem that is a compact
IRI under a prefix or a computed key, and a computed key with the name of a prefix, with
that of the context or with a namespace for its local IRI: the context abbreviates
otherwise.  A prefix with the name of the context, a stem under its own prefix, prefixes or
a computed key in a circle, a computed key with the name of the vocabulary, a vocabulary
that is no text, and a base with a context: there is no context.  A property that the
vocabulary names `@id`: it is written over the identity. -/
theorem abbreviations_differ :
    (∀ e ∈ [("isbn", "urn:isbn:"), ("@ex", "http://example.org/"), ("urn", "http://urn.example/"),
        ("x", "urn:b/"), ("x", "known:b/"), ("ex", "http://example.org/"),
        ("@context", "http://example.org/"), ("urn", "urn:isbn:"), ("a", "b:x/"), ("b", "a:y/")],
      Iri.isAbsolute e.2 = true) ∧
    (∀ input ∈ [
        (Namespaces.empty.insertAll [("isbn", "urn:isbn:")], [], "urn:isbn:0306406152"),
        (Namespaces.empty.insertAll [("@ex", "http://example.org/")], [], "http://example.org/a"),
        (Namespaces.empty.insertAll [("urn", "http://urn.example/"), ("x", "urn:b/")], [],
          "urn:b/c"),
        (Namespaces.empty.insertAll [("x", "known:b/")], ["known"], "known:b/c"),
        (Namespaces.exampleOrg, ["ex"], "http://example.org/a"),
        (Namespaces.exampleOrg, ["@context"], "http://example.org/a"),
        (Namespaces.exampleOrg, ["part/"], "urn:local:part/x")],
      ∃ plan ∈ ((booksWith [] input.2.1).compileConstruct input.1 {}).toOption,
        ∃ p ∈ plan.parts, p.entity.schema.context = [] ∧
          ∃ ctx ∈ (Context.parse .empty (.obj (entityContext input.1 {} p))).toOption,
            ctx.compactId input.2.2 ≠ input.1.abbreviate input.2.2) ∧
    (∀ input ∈ [(Namespaces.empty.insertAll [("@context", "http://example.org/")], [], []),
        (Namespaces.empty.insertAll [("urn", "urn:isbn:")], [], []),
        (Namespaces.empty.insertAll [("a", "b:x/"), ("b", "a:y/")], [], []),
        (Namespaces.exampleOrg, ["urn"], []), (Namespaces.exampleOrg, ["@vocab"], []),
        (Namespaces.exampleOrg, [], [("@vocab", .bool true)]),
        (Namespaces.exampleOrg, [], [("@base", .obj [("@context", .bool true)])])],
      ∃ plan ∈ ((booksWith input.2.2 input.2.1).compileConstruct input.1 {}).toOption,
        ∃ p ∈ plan.parts, p.entity.schema.context = input.2.2 ∧
          (∀ member ∈ input.2.2, Iri.isKeyword member.1 = true) ∧
          (Context.parse .empty (.obj (entityContext input.1 {} p))).toOption.isNone) ∧
    ∃ plan ∈ ((booksWith [("@vocab", .str "http://vocab.org/")] []).compileConstruct
        .exampleOrg {}).toOption,
      ∃ p ∈ plan.parts,
        ∃ ctx ∈ (Context.parse .empty (.obj (entityContext .exampleOrg {} p))).toOption,
          Assoc.get? (Node.compact ctx
              ⟨"http://example.org/a", [], [("http://vocab.org/@id", [.iri "urn:b"])]⟩) "@id" ≠
            some (binding .exampleOrg none (.uri "http://example.org/a")) := by
  decide +kernel

end Decode

end ObjectGraph
