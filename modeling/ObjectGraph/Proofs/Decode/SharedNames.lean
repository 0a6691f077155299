import ObjectGraph.Proofs.Decode.Gathering

/-!
# Shared names from the query to the objects

The compilers write one variable for a name, and reading a graph links entities by the
names themselves.  The two agree on the names that are their own variables: those of
letters, digits and underscores (`compileParts_shares`).  Along such a name the references
of a key become the objects that they refer to.

A value under a key to which no backward link writes is resolved entity by entity, each by
itself within an array (`get?_linkLater`); a reference to a decoded child becomes a child's
object (`resolve_of_referent`) and all else stays.
-/

namespace ObjectGraph

open Json (Value Object)
open Allocator (IsName nameOf varOf)
open Sparql (Var)

namespace Decode

variable {ns : Namespaces} {config : Config} {s : Scoped} {d : Decoded}
  {children : List Decoded} {later : List (Scoped × List Decoded)} {key id : String}

/-! ## References -/

/-- A value with the references of a key replaced by the objects of later entities. -/
def resolve (s : Scoped) (key : String) (later : List (Scoped × List Decoded)) (v : Value) :
    Value :=
  later.foldr
    (fun (q, children) v =>
      if forwardKey? q.part.entity s.part.fragment = some key then
        replaceRef s.context children v
      else v)
    v

/-- A value resolved, or its items if it is an array. -/
def resolveAll (s : Scoped) (key : String) (later : List (Scoped × List Decoded)) :
    Value → Value
  | .arr items => .arr (items.map (resolve s key later))
  | v => resolve s key later v

@[simp] theorem resolve_cons (s q : Scoped) (key : String) (children : List Decoded)
    (later : List (Scoped × List Decoded)) (v : Value) :
    resolve s key ((q, children) :: later) v =
      if forwardKey? q.part.entity s.part.fragment = some key then
        replaceRef s.context children (resolve s key later v)
      else resolve s key later v := rfl

/-- All but texts stays. -/
theorem resolve_of_ne_str {v : Value} (hv : ∀ id, v ≠ .str id) : resolve s key later v = v := by
  induction later with
  | nil => rfl
  | cons e rest ih =>
      rw [resolve_cons, ih]
      split
      · cases v with
        | str id => exact (hv id rfl).elim
        | null | bool | num | arr | obj => rfl
      · rfl

/-- What an object refers to it refers to with one more entity behind it. -/
theorem IsReferent.cons {c : Decoded} (h : IsReferent s later key c)
    (e : Scoped × List Decoded) : IsReferent s (e :: later) key c := by
  obtain ⟨q, children, hq, hkey, hc⟩ := h
  exact ⟨q, children, List.mem_cons_of_mem _ hq, hkey, hc⟩

/-- A reference stays or becomes the object of a child that it refers to. -/
theorem resolve_str (s : Scoped) (key : String) (later : List (Scoped × List Decoded))
    (id : String) :
    resolve s key later (.str id) = .str id ∨
      ∃ c, IsReferent s later key c ∧ c.node.id = s.context.expand false id ∧
        resolve s key later (.str id) = .obj c.object := by
  induction later with
  | nil => exact .inl rfl
  | cons e rest ih =>
      obtain ⟨q, children⟩ := e
      rw [resolve_cons]
      rcases ih with hstr | ⟨c, hc, hid, hobj⟩
      · rw [hstr]
        split
        next hkey =>
          rcases replaceRef_str s.context children id with ⟨hleft, -⟩ | ⟨c, hc, hid, hobj⟩
          · exact .inl hleft
          · exact .inr ⟨c, ⟨q, children, List.mem_cons_self, hkey, hc⟩, hid, hobj⟩
        next => exact .inl rfl
      · rw [hobj]
        refine .inr ⟨c, hc.cons _, hid, ?_⟩
        split <;> rfl

/-- **References are resolved** if they refer to a child. -/
theorem resolve_of_referent {c : Decoded} (hc : IsReferent s later key c)
    (hid : c.node.id = s.context.expand false id) :
    ∃ c', IsReferent s later key c' ∧ c'.node.id = c.node.id ∧
      resolve s key later (.str id) = .obj c'.object := by
  rw [hid]
  refine (resolve_str s key later id).resolve_left ?_
  -- the turn of the entity that has the child leaves no reference to it
  obtain ⟨q, children, hq, hkey, hmem⟩ := hc
  induction later with
  | nil => cases hq
  | cons e rest ih =>
      obtain ⟨r, others⟩ := e
      rw [resolve_cons]
      rcases resolve_str s key rest id with hstr | ⟨c', -, -, hobj⟩
      · rcases List.mem_cons.mp hq with heq | hq
        · obtain ⟨rfl, rfl⟩ := Prod.mk.inj heq
          rw [if_pos hkey, hstr]
          rcases replaceRef_str s.context children id with ⟨-, hother⟩ | ⟨found, -, -, hobj⟩
          · exact (hother c hmem hid).elim
          · simp [hobj]
        · exact absurd hstr (ih hq)
      · rw [hobj]
        split <;> simp [replaceRef]

/-- No backward link writes to a key. -/
structure Clear (ns : Namespaces) (s : Scoped) (later : List (Scoped × List Decoded))
    (key : String) : Prop where
  member : key ≠ "@reverse"
  term : ∀ q children, (q, children) ∈ later →
    ∀ entry ∈ backwardKeys ns q.part.entity s.part.fragment,
      Place.of s.context entry.1 entry.2 ≠ .term key

/-- Backward links to other places leave a value. -/
theorem get?_foldl_linkBackward {name : String} (hmember : name ≠ "@reverse")
    (children : List Decoded) (entries : List (String × String))
    (hterm : ∀ entry ∈ entries, Place.of s.context entry.1 entry.2 ≠ .term name) (d : Decoded) :
    (entries.foldl (fun d (key, predicate) => linkBackward s.context children key predicate d)
      d).object.get? name = d.object.get? name := by
  induction entries generalizing d with
  | nil => rfl
  | cons entry rest ih =>
      obtain ⟨hfirst, hrest⟩ := List.forall_mem_cons.mp hterm
      obtain ⟨key, predicate⟩ := entry
      rw [List.foldl_cons, ih hrest]
      have hstep := linkBackward_gathers s.context children key predicate d
      dsimp only
      generalize linkBackward s.context children key predicate d = linked at hstep ⊢
      cases hstep with
      | nothing | blocked => rfl
      | @term reverse _ _ hreverse =>
          have hne : reverse ≠ name := by
            rintro rfl
            exact hfirst (by rw [Place.of, hreverse])
          exact (Assoc.get?_insert _ _ _ _).trans (if_neg hne)
      | member => exact (Assoc.get?_insert _ _ _ _).trans (if_neg hmember.symm)

/-- One more entity resolves the references that are left. -/
theorem resolveAll_cons {q : Scoped} (hkey : forwardKey? q.part.entity s.part.fragment = some key)
    (v : Value) :
    resolveAll s key ((q, children) :: later) v =
      replaceRefs s.context children (resolveAll s key later v) := by
  cases v with
  | arr items =>
      unfold resolveAll replaceRefs
      dsimp only
      rw [List.map_map]
      congr 2
      funext w
      exact if_pos hkey
  | str id =>
      unfold resolveAll
      dsimp only
      rw [resolve_cons, if_pos hkey]
      rcases resolve_str s key later id with hstr | ⟨c, -, -, hobj⟩
      · rw [hstr]
        rfl
      · rw [hobj]
        rfl
  | null | bool | num | obj =>
      unfold resolveAll
      dsimp only
      rw [resolve_cons, if_pos hkey, resolve_of_ne_str (by simp)]
      rfl

/-- An entity that is not reached by a key resolves nothing under it. -/
theorem resolveAll_cons_of_ne {q : Scoped}
    (hkey : forwardKey? q.part.entity s.part.fragment ≠ some key) :
    resolveAll s key ((q, children) :: later) = resolveAll s key later := by
  have hsame : resolve s key ((q, children) :: later) = resolve s key later := by
    funext v
    exact if_neg hkey
  funext v
  unfold resolveAll
  rw [hsame]

/-- **Values are resolved** under a key to which no backward link writes. -/
theorem get?_linkLater (h : Clear ns s later key) (d : Decoded) :
    (linkLater ns s later d).object.get? key =
      (d.object.get? key).map (resolveAll s key later) := by
  obtain ⟨hmember, hterm⟩ := h
  induction later with
  | nil =>
      have hsame : resolveAll s key [] = id := by
        funext v
        unfold resolveAll
        split
        next items => exact congrArg Value.arr (List.map_id _)
        next => rfl
      rw [hsame, Option.map_id]
      rfl
  | cons e rest ih =>
      obtain ⟨q, children⟩ := e
      specialize ih fun r others hr => hterm r others (List.mem_cons_of_mem _ hr)
      rw [linkLater_cons, Function.comp_apply]
      unfold linkInto
      dsimp only
      rw [get?_foldl_linkBackward hmember children _ (hterm q children List.mem_cons_self)]
      split
      next k hk =>
        rw [get?_linkForward]
        split
        next heq =>
          subst heq
          rw [ih, Option.map_map]
          congr 1
          funext v
          exact (resolveAll_cons hk v).symm
        next hne =>
          rw [ih, resolveAll_cons_of_ne (fun hkey => hne (Option.some.inj (hk.symm.trans hkey)))]
      next hk =>
        rw [ih, resolveAll_cons_of_ne (by simp [hk])]

/-! ## Results -/

/-- **A name means the same everywhere** if it is its own variable.  What a collection
writes is spelled with the variables of the names; an order takes a name as its variable,
an entity takes its context along a name, nodes are asked for its links and objects are
nested along it exactly if the fragments have that variable in common and the name is the
variable.  A reference to a decoded child by the key of such a name becomes its object. -/
theorem compileParts_shares {c : Collection} {options : CompileOptions} {parts : List Part}
    (h : c.compileParts ns config options = .ok parts) :
    (∀ p ∈ parts, p.fragment.Spells ns c.Chooses options p.entity) ∧
    (∀ key name, Sparql.sharedName? key = some name →
      (Collection.orderVar? (parts.map (·.fragment)) key = some (varOf name) ↔
        IsName (Var.ofText name).name)) ∧
    (∀ earlier : List Scoped, earlier.map (·.part) ⊆ parts → ∀ q : Part,
      (parentLink? ns earlier q.entity).isSome ↔
        ∃ s ∈ earlier, ∃ name, IsName name ∧ q.Ties ns s.part name) ∧
    (∀ p ∈ parts, ∀ j l, l ∈ linksOf ns parts j p ↔ Asked ns parts j p l) ∧
    (∀ p ∈ parts, ∀ q : Part, (∃ key, forwardKey? q.entity p.fragment = some key) ∨
        (∃ key predicate, (key, predicate) ∈ backwardKeys ns q.entity p.fragment) ↔
      ∃ name, IsName name ∧ q.Ties ns p name) ∧
    ∀ quads objects, graph ns config c parts quads = .ok objects →
      ∃ r : Reading ns config parts quads, objects.Perm (roots r.final) ∧
        ∀ i s ds, r.own[i]? = some (s, ds) →
          r.final[i]? = some (s, ds.map (linkLater ns s (turns ns r.own 1 i))) ∧
          ∀ j q children, 0 < j → j ≠ i → r.whole[j]? = some (q, children) →
            ∀ key name, q.part.entity.condition? "@id" = some (.shared name) → IsName name →
              key ≠ "@id" → (key, varOf name) ∈ s.part.fragment.props.entries →
              Clear ns s (turns ns r.own 1 i) key → ∀ d ∈ ds,
                (linkLater ns s (turns ns r.own 1 i) d).object.get? key =
                  (d.object.get? key).map (resolveAll s key (turns ns r.own 1 i)) ∧
                ∀ child ∈ children, ∀ id, child.node.id = s.context.expand false id →
                  ∃ c', IsReferent s (turns ns r.own 1 i) key c' ∧ c'.node.id = child.node.id ∧
                    resolve s key (turns ns r.own 1 i) (.str id) = .obj c'.object := by
  have hparts := Collection.compileParts_wellNamed h
  refine ⟨Collection.compileParts_spells h,
    fun key name hkey => Collection.orderVar?_eq_varOf_iff _ hkey,
    fun earlier hearlier q => parentLink?_isSome_iff fun s hs =>
      hparts _ (hearlier (List.mem_map_of_mem hs)),
    fun p hp j l => mem_linksOf_iff hparts (hparts p hp),
    fun p hp q => linked_iff (hparts p hp), ?_⟩
  intro quads objects hgraph
  obtain ⟨r, hobjects⟩ := graph_reading hgraph
  refine ⟨r, hobjects, fun i s ds hi => ⟨Reading.getElem?_final hi, ?_⟩⟩
  intro j q children hpos hne hj key name hname hproper hkey hentry hclear d _
  refine ⟨get?_linkLater hclear d, fun child hchild id hid => ?_⟩
  have hforward : forwardKey? q.part.entity s.part.fragment = some key :=
    (forwardKey?_eq_some_iff (hparts _ (Reading.part_mem hi))).mpr
      ⟨hkey, name, hname, hproper, hentry⟩
  exact resolve_of_referent ⟨q, children, mem_turns hj hpos hne, hforward, hchild⟩ hid

/-- Tasks, and the projects that have a name in their conditions. -/
def tasksOf (name : String) : Collection where
  entities :=
    [{ index := 0
       schema :=
         { targetClass := some "ex:Task"
           context := [("project", .str "ex:project")]
           properties := [("project", { format := some "iri" })] }
       conditions := [("project", .shared name)] },
     { index := 1
       schema :=
         { targetClass := some "ex:Project"
           context := [("lead", .str "ex:lead")]
           properties := [("lead", { format := some "iri" })] }
       conditions := [("@id", .shared name)] }]

/-- A task of a project that Ann leads. -/
def taskQuads : List Quad :=
  [quadOf "http://example.org/t" Vocabulary.rdfType "http://example.org/Task",
   quadOf "http://example.org/t" "http://example.org/project" "http://example.org/p",
   quadOf "http://example.org/p" Vocabulary.rdfType "http://example.org/Project",
   quadOf "http://example.org/p" "http://example.org/lead" "http://example.org/ann"]

/-- A task refers to a project, and the variable of its key is that of the other's
identity. -/
def HasProject (name : String) (s q : Scoped) (d project : Decoded) : Prop :=
  q.part.entity.identityName? = some name ∧ q.part.fragment.subject = .var (varOf name) ∧
    ("project", varOf name) ∈ s.part.fragment.props.entries ∧
    d.object.get? "project" = some (.str "ex:p") ∧
    project.node.id = s.context.expand false "ex:p" ∧
    backwardKeys .exampleOrg q.part.entity s.part.fragment = []

instance (name : String) (s q : Scoped) (d project : Decoded) :
    Decidable (HasProject name s q d project) :=
  inferInstanceAs (Decidable (_ ∧ _))

/-- The name of the projects is its own variable, and the task has its project. -/
theorem compileParts_shares_tasks :
    ∃ plan object project, (tasksOf "the_proj").compileConstruct .exampleOrg {} = .ok plan ∧
      Collection.orderVar? (plan.parts.map (·.fragment)) "?the_proj" = some (varOf "the_proj") ∧
      graph .exampleOrg {} (tasksOf "the_proj") plan.parts taskQuads = .ok [object] ∧
      object.get? "project" = some (.obj project) := by
  have hname : IsName "the_proj" := Allocator.nameOf_eq_self_iff.mp (by decide)
  have hread : ∃ object,
      (readBack .exampleOrg (tasksOf "the_proj") taskQuads).toOption = some [object] :=
    ⟨[("@id", .str "ex:t"),
      ("project", .obj [("@id", .str "ex:p"), ("lead", .str "ex:ann")])], by decide +kernel⟩
  obtain ⟨object, hread⟩ := hread
  obtain ⟨plan, hplan, h⟩ := exists_plan_of_readBack hread
  obtain ⟨-, horder, -, -, -, hgraph⟩ :=
    compileParts_shares (Collection.compileParts_of_construct hplan)
  obtain ⟨r, hobjects, hresolves⟩ := hgraph taskQuads [object] h
  have hdata : ∀ made ∈ ((tasksOf "the_proj").compileConstruct .exampleOrg {}).toOption,
      ∀ own ∈ readOwn .exampleOrg made.parts taskQuads, (assembled .exampleOrg own).length = 2 ∧
        ∃ e ∈ own[0]?, ∃ d ∈ e.2, ∃ f ∈ (assembled .exampleOrg own)[1]?, ∃ project ∈ f.2,
          HasProject "the_proj" e.1 f.1 d project := by
    decide +kernel
  obtain ⟨hlength, ⟨s, ds⟩, hi, d, hd, ⟨q, children⟩, hj, project, hproject, hidentity, -, hentry,
    hvalue, hid, hkeys⟩ := hdata plan (by rw [hplan]; rfl) r.own r.own_mem_readOwn
  have hturns : turns .exampleOrg r.own 1 0 = [(q, children)] := by
    rw [turns_of_lt _ Nat.one_pos]
    obtain ⟨hlt, hget⟩ := List.getElem?_eq_some_iff.mp hj
    rw [List.drop_eq_getElem_cons hlt, hget, List.drop_eq_nil_of_le (Nat.le_of_eq hlength)]
  have hclear : Clear .exampleOrg s (turns .exampleOrg r.own 1 0) "project" := by
    refine ⟨by decide, fun t others ht entry hother => ?_⟩
    rw [hturns] at ht
    obtain ⟨rfl, rfl⟩ := Prod.mk.inj (List.mem_singleton.mp ht)
    rw [hkeys] at hother
    cases hother
  obtain ⟨-, hlinks⟩ := hresolves 0 s ds hi
  obtain ⟨hget, hchild⟩ := hlinks 1 q children Nat.one_pos (by decide) hj "project" "the_proj"
    (Entity.identityName?_eq_some_iff.mp hidentity) hname (by decide) hentry hclear d hd
  obtain ⟨c, -, -, hresolved⟩ := hchild project hproject "ex:p" hid
  rw [hvalue, Option.map_some] at hget
  refine ⟨plan, object, c.object, hplan, (horder "?the_proj" "the_proj" (by decide)).mpr
    (by simpa [Var.ofText] using hname), h, ?_⟩
  rw [← List.mem_singleton.mp (hobjects.mem_iff.mpr (Reading.mem_roots hi hd)), hget]
  exact congrArg some hresolved

/-- With a hyphen the name is not its variable: an order takes another one, and the task has
the mere reference. -/
theorem hyphen_not_shared :
    (readBack .exampleOrg (tasksOf "the-proj") taskQuads).toOption =
        some [[("@id", .str "ex:t"), ("project", .str "ex:p")]] ∧
      ∃ plan ∈ ((tasksOf "the-proj").compileConstruct .exampleOrg {}).toOption,
        Collection.orderVar? (plan.parts.map (·.fragment)) "?the-proj" ≠
          some (varOf "the-proj") ∧
        ∃ own ∈ readOwn .exampleOrg plan.parts taskQuads, ∃ e ∈ own[0]?, ∃ d ∈ e.2,
          ∃ f ∈ (assembled .exampleOrg own)[1]?, ∃ project ∈ f.2,
            HasProject "the-proj" e.1 f.1 d project := by
  decide +kernel

end Decode

end ObjectGraph
