import ObjectGraph.Decode.Scope
import ObjectGraph.Proofs.Compile.Draft
import ObjectGraph.Proofs.Context.Following
import ObjectGraph.Proofs.Namespaces

/-!
# The terms of an entity's context
-/

namespace ObjectGraph

open Json (Value Object)

/-- The name that a schema writes for a key, and whether the key is reverse. -/
def Schema.written? (s : Schema) (key : String) : Option (String × Bool) :=
  (s.context.get? key).bind Context.writtenTarget?

/-- The predicate of a key is its written name, expanded by the namespace map. -/
theorem Schema.mapping?_eq (s : Schema) (ns : Namespaces) (key : String) :
    s.mapping? ns key = (s.written? key).map fun w => ⟨ns.expand w.1, w.2⟩ := by
  unfold mapping? written?
  cases s.context.get? key with
  | none => rfl
  | some v =>
      cases v with
      | null | bool | num | str | arr => rfl
      | obj entry =>
          simp only [Option.bind_some, Context.writtenTarget?]
          cases (Assoc.get? entry "@reverse").bind Value.asText? with
          | some s => rfl
          | none => cases (Assoc.get? entry "@id").bind Value.asText? <;> rfl

namespace Namespaces

/-- The prefixes as members of an object. -/
def members (ns : Namespaces) : Object :=
  ns.entries.map fun e => (e.1, .str e.2)

/-- The prefixes are the keys of their members. -/
theorem keys_members (ns : Namespaces) : ns.members.keys = ns.entries.map Prod.fst := by
  simp [members, Assoc.keys]

/-- A prefix is the member with its stem. -/
theorem get?_members (ns : Namespaces) (name : String) :
    ns.members.get? name = (ns.get? name).map .str := by
  unfold members get?
  induction ns.entries with
  | nil => rfl
  | cons e rest ih =>
      by_cases h : e.1 = name
      · simp [Assoc.get?, h]
      · simpa [Assoc.get?, h] using ih

end Namespaces

namespace Decode

/-- The member that a member of a schema's context becomes. -/
def enteredTerm? (schema : Schema) (member : String × Value) : Option Value :=
  if Iri.isKeyword member.1 then
    if member.1 = "@vocab" ∨ member.1 = "@base" then some member.2 else none
  else
    match member.2 with
    | .str id => some (.obj (termEntry (schema.kindOf member.1) [("@id", .str id)]))
    | .obj entry => some (.obj (termEntry (schema.kindOf member.1) entry))
    | other => some other

/-- A member of a schema's context is entered as what it becomes, if it becomes anything. -/
theorem enterTerm_eq (schema : Schema) (context : Object) (member : String × Value) :
    enterTerm schema context member =
      match enteredTerm? schema member with
      | some v => context.insert member.1 v
      | none => context := by
  obtain ⟨k, v⟩ := member
  unfold enterTerm enteredTerm?
  dsimp only
  split
  · split <;> rfl
  · cases v <;> rfl

/-- What a schema's context enters under a key, if it has the key, and else what
stood there before. -/
theorem get?_foldl_enterTerm (schema : Schema) {terms : Object} (hkeys : terms.keys.Nodup)
    (context : Object) (key : String) :
    (terms.foldl (enterTerm schema) context).get? key =
      ((terms.get? key).bind fun v => enteredTerm? schema (key, v)).or (context.get? key) := by
  induction terms generalizing context with
  | nil => rfl
  | cons member rest ih =>
      obtain ⟨k, v⟩ := member
      obtain ⟨hk, hrest⟩ := List.nodup_cons.mp hkeys
      rw [List.foldl_cons, ih hrest, enterTerm_eq]
      by_cases h : k = key
      · subst h
        rw [Assoc.get?_eq_none_iff.mpr hk]
        cases hv : enteredTerm? schema (k, v) with
        | none => simp [Assoc.get?, hv]
        | some e => simp [Assoc.get?, hv, Assoc.get?_insert]
      · cases hv : enteredTerm? schema (k, v) with
        | none => simp [Assoc.get?, h]
        | some e => simp [Assoc.get?, h, Assoc.get?_insert]

/-- Entering terms gives no key a second member. -/
theorem nodup_foldl_enterTerm (schema : Schema) (terms : Object) {context : Object}
    (hkeys : context.keys.Nodup) : (terms.foldl (enterTerm schema) context).keys.Nodup := by
  induction terms generalizing context with
  | nil => exact hkeys
  | cons member rest ih =>
      refine ih ?_
      rw [enterTerm_eq]
      split
      · exact Assoc.nodup_keys_insert hkeys _ _
      · exact hkeys

/-- The member of a computed key. -/
def computedTerm (config : Config) (key : String) : Value :=
  .obj [("@id", .str (config.localIri key)), ("@type", .str "xsd:boolean")]

/-- The members of computed keys stand in front of those beneath. -/
theorem get?_foldl_computed (config : Config) (keys : List String) (context : Object)
    (key : String) :
    Assoc.get? (keys.foldl (fun context key => context.insert key (computedTerm config key))
        context) key =
      if key ∈ keys then some (computedTerm config key) else context.get? key := by
  induction keys generalizing context with
  | nil => simp
  | cons k rest ih =>
      rw [List.foldl_cons, ih]
      by_cases hrest : key ∈ rest
      · simp [hrest]
      · by_cases h : k = key
        · subst h
          simp [Assoc.get?_insert]
        · simp [hrest, h, Ne.symm h, Assoc.get?_insert]

/-- Entering computed keys gives no key a second member. -/
theorem nodup_foldl_computed (config : Config) (keys : List String) {context : Object}
    (hkeys : context.keys.Nodup) :
    Assoc.keys (keys.foldl (fun context key => context.insert key (computedTerm config key))
      context) |>.Nodup := by
  induction keys generalizing context with
  | nil => exact hkeys
  | cons k rest ih => exact ih (Assoc.nodup_keys_insert hkeys _ _)

variable {ns : Namespaces} {config : Config} {p : Part}

/-- The context of an entity has one member for each key. -/
theorem nodup_entityContext : (Assoc.keys (entityContext ns config p)).Nodup := by
  refine nodup_foldl_computed config _ (nodup_foldl_enterTerm _ _ ?_)
  exact ns.keys_members ▸ ns.nodup_names

/-- A key stands for its computed key first, then for what the schema enters, then
for a prefix. -/
theorem get?_entityContext (hkeys : p.entity.schema.context.keys.Nodup) (key : String) :
    Assoc.get? (entityContext ns config p) key =
      if key ∈ p.fragment.bindVars.keys then some (computedTerm config key)
      else
        ((p.entity.schema.context.get? key).bind fun v =>
          enteredTerm? p.entity.schema (key, v)).or ((ns.get? key).map .str) := by
  have h := get?_foldl_computed config p.fragment.bindVars.keys
    (p.entity.schema.context.foldl (enterTerm p.entity.schema) ns.members) key
  rw [get?_foldl_enterTerm _ hkeys, Namespaces.get?_members] at h
  exact h

/-- Typing and container apart, the entry of a key stays as it is. -/
theorem get?_termEntry {entry : Object} (hkeys : entry.keys.Nodup) (kind : Kind) {name : String}
    (htype : name ≠ "@type") (hcontainer : name ≠ "@container") :
    Assoc.get? (termEntry kind entry) name = entry.get? name := by
  have hstripped : Assoc.get?
      (if isStringTyped entry then entry.swapErase "@type" else entry) name = entry.get? name := by
    split
    · exact Assoc.get?_swapErase_of_ne hkeys (Ne.symm htype)
    · rfl
  have hinsert : ∀ (b : Bool) (m : Object) (key : String) (v : Value), key ≠ name →
      Assoc.get? (if b then m.insert key v else m) name = m.get? name := by
    intro b m key v hne
    cases b
    · rfl
    · simp [Assoc.get?_insert, hne]
  unfold termEntry
  dsimp only
  rw [hinsert _ _ _ _ (Ne.symm hcontainer), hinsert _ _ _ _ (Ne.symm htype)]
  exact hstripped

/-- What a schema's context enters for a definition writes the same target. -/
theorem exists_enteredTerm? {schema : Schema} {key : String} {v : Value}
    {target : String × Bool} (hkey : Iri.isKeyword key = false)
    (hentry : ∀ entry, v = .obj entry → (Assoc.keys entry).Nodup)
    (hv : Context.writtenTarget? v = some target) :
    ∃ e, enteredTerm? schema (key, v) = some e ∧ Context.writtenTarget? e = some target := by
  have hsame : ∀ entry : Object, entry.keys.Nodup →
      Context.writtenTarget? (.obj (termEntry (schema.kindOf key) entry)) =
        Context.writtenTarget? (.obj entry) := by
    intro entry hkeys
    unfold Context.writtenTarget?
    dsimp only
    rw [get?_termEntry hkeys _ (by decide) (by decide),
      get?_termEntry hkeys _ (by decide) (by decide)]
  cases v with
  | null | bool | num | arr => cases hv
  | str id =>
      refine ⟨_, by simp [enteredTerm?, hkey]; rfl, ?_⟩
      exact (hsame [("@id", .str id)] (by simp [Assoc.keys])).trans hv
  | obj entry =>
      refine ⟨_, by simp [enteredTerm?, hkey]; rfl, ?_⟩
      exact (hsame entry (hentry entry rfl)).trans hv

/-- Only a prefix or a computed key can stand under `@context`. -/
theorem get?_context (hkeys : p.entity.schema.context.keys.Nodup)
    (hcomputed : "@context" ∉ p.fragment.bindVars.keys) :
    Assoc.get? (entityContext ns config p) "@context" = (ns.get? "@context").map .str := by
  have hword : Iri.isKeyword "@context" = true := by decide
  have henter : ∀ v, enteredTerm? p.entity.schema ("@context", v) = none := by
    simp [enteredTerm?, hword]
  rw [get?_entityContext hkeys, if_neg hcomputed]
  cases p.entity.schema.context.get? "@context" <;> simp [henter]

/-- A prefix that is called `@context` makes the context an error. -/
theorem not_mem_keys_of_parse {ctx : Context} (hkeys : p.entity.schema.context.keys.Nodup)
    (hcomputed : "@context" ∉ p.fragment.bindVars.keys)
    (h : Context.parse .empty (.obj (entityContext ns config p)) = .ok ctx) :
    "@context" ∉ Assoc.keys (entityContext ns config p) := by
  rw [← Assoc.get?_eq_none_iff, get?_context hkeys hcomputed]
  cases hstem : ns.get? "@context" with
  | none => rfl
  | some stem =>
      unfold Context.parse at h
      rw [Context.parseWrapped_eq, get?_context hkeys hcomputed, hstem] at h
      simp [Context.parse] at h

/-- What the search for names in an entity's context sees. -/
def Leading (ns : Namespaces) (config : Config) (p : Part) : String → String → Prop :=
  Context.Leads (entityContext ns config p) .empty
    (Context.vocabOf .empty (entityContext ns config p))

end Decode

/-- A term stands for a property, forwards or backwards. -/
def Context.Names (ctx : Context) (term : String) (m : Mapping) : Prop :=
  ∃ d, ctx.get? term = some d ∧
    if m.reverse then d.reverse = some m.iri else d.target = (some m.iri, none)

/-- A term stands for one property only. -/
theorem Context.Names.unique {ctx : Context} {term iri iri' : String} {reverse : Bool}
    (h : ctx.Names term ⟨iri, reverse⟩) (h' : ctx.Names term ⟨iri', reverse⟩) : iri = iri' := by
  obtain ⟨d, hd, hiri⟩ := h
  obtain ⟨d', hd', hiri'⟩ := h'
  obtain rfl : d = d' := Option.some.inj (hd.symm.trans hd')
  cases reverse <;> simp_all

namespace Decode

variable {ns : Namespaces} {config : Config} {p : Part} {ctx : Context}

/-- A key that starts as keywords do is no term. -/
theorem not_names_of_keyword (hkeys : p.entity.schema.context.keys.Nodup)
    (hcomputed : "@context" ∉ p.fragment.bindVars.keys)
    (hparse : Context.parse .empty (.obj (entityContext ns config p)) = .ok ctx)
    {key : String} (hkey : Iri.isKeyword key = true) (m : Mapping) : ¬ ctx.Names key m := by
  obtain ⟨hkeyword, _⟩ := Context.parse_obj nodup_entityContext
    (not_mem_keys_of_parse hkeys hcomputed hparse) hparse
  have hnone : (ctx.get? key).map Definition.target = none := hkeyword key hkey
  rintro ⟨d, hd, _⟩
  simp [hd] at hnone

/-- A term of an entity's context stands for what the name in its member leads to. -/
theorem names_iff_leading (hkeys : p.entity.schema.context.keys.Nodup)
    (hcomputed : "@context" ∉ p.fragment.bindVars.keys)
    (hparse : Context.parse .empty (.obj (entityContext ns config p)) = .ok ctx)
    {key w : String} {reverse : Bool} {e : Value} (hkey : Iri.isKeyword key = false)
    (he : Assoc.get? (entityContext ns config p) key = some e)
    (hw : Context.writtenTarget? e = some (w, reverse)) (iri : String) :
    ctx.Names key ⟨iri, reverse⟩ ↔ Leading ns config p w iri := by
  obtain ⟨_, hdefined⟩ := Context.parse_obj nodup_entityContext
    (not_mem_keys_of_parse hkeys hcomputed hparse) hparse
  have hnull : e ≠ .null := by
    rintro rfl
    cases hw
  obtain ⟨d, hd, htarget⟩ := hdefined (key, e) (Assoc.mem_of_get? he) hkey hnull
  obtain ⟨i, hi, hmaps⟩ := Context.define_target hw hd
  have hleads : Leading ns config p w i := Context.leads_of_follow hi
  obtain ⟨found, hfound, hsame⟩ := Option.map_eq_some_iff.mp htarget
  have hnames : ctx.Names key ⟨i, reverse⟩ := by
    refine ⟨found, hfound, ?_⟩
    cases reverse <;> simp_all [Definition.target]
  constructor
  · intro h
    exact h.unique hnames ▸ hleads
  · intro h
    exact hleads.unique h ▸ hnames

/-- On a plain name only the namespace map has a say: it is a full IRI, or its prefix
is defined neither by the schema nor by a computed key, and stands for a full IRI if
the map knows it. -/
inductive PlainName (ns : Namespaces) (p : Part) : String → Prop
  | full {w : String} (hparts : Iri.compactParts? w = none) (habsolute : Iri.isAbsolute w = true) :
      PlainName ns p w
  | prefixed {w name rest stem : String} (hw : Iri.isKeyword w = false)
      (hparts : Iri.compactParts? w = some (name, rest)) (hstem : ns.get? name = some stem)
      (hfull : Iri.compactParts? stem = none) (habsolute : Iri.isAbsolute stem = true)
      (hschema : name ∉ p.entity.schema.context.keys)
      (hcomputed : name ∉ p.fragment.bindVars.keys) : PlainName ns p w
  | unknown {w name rest : String} (hw : Iri.isKeyword w = false)
      (hparts : Iri.compactParts? w = some (name, rest)) (hunknown : ns.get? name = none)
      (hschema : name ∉ p.entity.schema.context.keys)
      (hcomputed : name ∉ p.fragment.bindVars.keys) : PlainName ns p w

/-- A plain name leads to its expansion by the namespace map. -/
theorem PlainName.leading (hkeys : p.entity.schema.context.keys.Nodup) {w : String}
    (h : PlainName ns p w) : Leading ns config p w (ns.expand w) := by
  have htarget : ∀ name, name ∉ p.entity.schema.context.keys → name ∉ p.fragment.bindVars.keys →
      Context.localTarget? (entityContext ns config p) name = ns.get? name := by
    intro name hschema hcomputed
    unfold Context.localTarget?
    rw [get?_entityContext hkeys, if_neg hcomputed, Assoc.get?_eq_none_iff.mpr hschema]
    cases ns.get? name <;> rfl
  cases h with
  | full hparts habsolute =>
      rw [show ns.expand w = w by simp [Namespaces.expand, hparts]]
      exact .absolute (Iri.isKeyword_of_isAbsolute habsolute) hparts habsolute
  | @prefixed name rest stem hw hparts hstem hfull habsolute hschema hcomputed =>
      rw [show ns.expand w = stem ++ rest by simp [Namespaces.expand, hparts, hstem]]
      refine .compact hw hparts ((htarget name hschema hcomputed).trans hstem) ?_
      exact .absolute (Iri.isKeyword_of_isAbsolute habsolute) hfull habsolute
  | @unknown name rest hw hparts hunknown hschema hcomputed =>
      rw [show ns.expand w = w by simp [Namespaces.expand, hparts, hunknown]]
      exact .foreign hw hparts ((htarget name hschema hcomputed).trans hunknown) rfl

end Decode

end ObjectGraph
