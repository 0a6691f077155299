import ObjectGraph.Proofs.Compile.Draft

/-!
# The slots of a fragment

A slot is what a variable of a fragment is for: its subject, the variables of its type,
a key that is selected, hidden or computed, or the witness of a test for existence.
`Carries` reads off the fragment which variable a slot has.  The filters that compare a
value start with the variable of a slot and have none of their own, while those of the
type and of tests for existence start with no variable and bear one (`Bears`).

A step of a draft enters few variables, and `Grows` says where: all that a fragment
carries after it was carried before, is new, or is borne by a new filter.
-/

namespace ObjectGraph

open Sparql (Var Term Expression Pattern)

/-- What a variable of a fragment is for. -/
inductive Slot where
  | subject
  | type
  | subtype
  | supertype
  | selected (key : String)
  | hidden (key : String)
  | computed (key : String)
  /-- The witness of the test for existence at a place among the filters. -/
  | witness (place : Nat)
  deriving DecidableEq

/-- The slot of a selected key; identity and type are those of the subject. -/
def Slot.ofKey (key : String) : Slot :=
  if key = "@id" then .subject else if key = "@type" then .type else .selected key

/-- A filter at a place has a variable of its own. -/
inductive Bears (subject : Term) (place : Nat) (g : Expression) : Slot → Var → Prop
  | subtype {type v : Var} (h : g = MostSpecificType.noNarrower subject type v) :
      Bears subject place g .subtype v
  | supertype {type v : Var} {class_ : String} (h : g = MostSpecificType.under type v class_) :
      Bears subject place g .supertype v
  | witness {m : Mapping} {relation : Relation} {v : Var}
      (h : g = m.test relation subject v) : Bears subject place g (.witness place) v

/-- The variable that a fragment has for a slot. -/
inductive Fragment.Carries (f : Fragment) : Slot → Var → Prop
  | subject {v : Var} (h : f.subject = .var v) : Carries f .subject v
  | type {v : Var} (h : f.typeVar = some v) : Carries f .type v
  | filter {place : Nat} {g : Expression} {s : Slot} {v : Var}
      (h : f.filters[place]? = some g) (hbears : Bears f.subject place g s v) : Carries f s v
  | selected {key : String} {v : Var} (h : (key, v) ∈ f.props.entries) :
      Carries f (.ofKey key) v
  | hidden {key : String} {v : Var} (h : (key, v) ∈ f.hidden.entries) :
      Carries f (.hidden key) v
  | computed {key : String} {v : Var} (h : (key, v) ∈ f.bindVars.entries) :
      Carries f (.computed key) v

/-- The group that a test looks for. -/
def Sparql.Expression.body : Expression → List Pattern
  | .exist g | .notExist g => g
  | _ => []

/-- The group of the test of a link is the triple of the link. -/
theorem Mapping.test_body (m : Mapping) (relation : Relation) (subject : Term) (x : Var) :
    (m.test relation subject x).body = [.triples [m.triple subject (.var x)]] := by
  unfold test
  split <;> rfl

/-- A test for existence looks for one pattern, the tests of a type for two. -/
theorem Mapping.test_ne {g : Expression} (hg : g.body.length = 2) (m : Mapping)
    (relation : Relation) (subject : Term) (x : Var) : m.test relation subject x ≠ g := by
  rintro rfl
  rw [test_body] at hg
  cases hg

/-- The triples of one subject with one variable each have the same variable if they
are the same, whatever the direction of their properties. -/
theorem Mapping.triple_var_inj {m m' : Mapping} {subject : Term} {x y : Var}
    (h : m.triple subject (.var x) = m'.triple subject (.var y)) : x = y := by
  unfold triple at h
  cases hm : m.reverse <;> cases hm' : m'.reverse <;> simp only [hm, hm'] at h <;>
    injection h with hsubject _ hobject
  · exact Term.var.inj hobject
  · exact Term.var.inj (hobject.trans hsubject)
  · exact Term.var.inj (hsubject.trans hobject)
  · exact Term.var.inj hsubject

namespace Bears

variable {subject : Term} {place : Nat} {g : Expression} {s : Slot} {v : Var}

/-- A filter that starts with a variable has none of its own. -/
theorem lead (h : Bears subject place g s v) : g.lead? = none := by
  cases h with
  | subtype h | supertype h => subst h; rfl
  | witness h => subst h; exact Mapping.test_lead ..

/-- The test that a type has no narrower one bears the variable of the narrower type. -/
theorem of_noNarrower {type x : Var}
    (h : Bears subject place (MostSpecificType.noNarrower subject type x) s v) :
    s = .subtype ∧ v = x := by
  cases h with
  | subtype h =>
      cases h
      exact ⟨rfl, rfl⟩
  | supertype h => cases h
  | @witness m relation _ h => exact (m.test_ne rfl relation subject v h.symm).elim

/-- The test that a type is under a class bears the variable of the class. -/
theorem of_under {type x : Var} {class_ : String}
    (h : Bears subject place (MostSpecificType.under type x class_) s v) :
    s = .supertype ∧ v = x := by
  cases h with
  | subtype h => cases h
  | supertype h =>
      cases h
      exact ⟨rfl, rfl⟩
  | @witness m relation _ h => exact (m.test_ne rfl relation subject v h.symm).elim

/-- The test of a link bears its witness. -/
theorem of_test {m : Mapping} {relation : Relation} {x : Var}
    (h : Bears subject place (m.test relation subject x) s v) :
    s = .witness place ∧ v = x := by
  cases h with
  | subtype h | supertype h => exact (m.test_ne rfl relation subject x h).elim
  | @witness m' relation' _ h =>
      have hbody := congrArg Expression.body h
      rw [Mapping.test_body, Mapping.test_body] at hbody
      injection hbody with hpattern _
      injection hpattern with htriples
      injection htriples with htriple _
      exact ⟨rfl, (Mapping.triple_var_inj htriple).symm⟩

end Bears

/-- A fragment grows by the filters `new` and, apart from what these bear, by the
variables of `entered`. -/
structure Fragment.Grows (f f' : Fragment) (new : List Expression) (entered : Slot → Var → Prop) :
    Prop where
  subject : f'.subject = f.subject
  type : ∀ v, f'.typeVar = some v → f.typeVar = some v ∨ entered .type v
  filters : f'.filters = f.filters ++ new
  selected : ∀ key v, (key, v) ∈ f'.props.entries →
    (key, v) ∈ f.props.entries ∨ entered (.ofKey key) v
  hidden : ∀ key v, (key, v) ∈ f'.hidden.entries →
    (key, v) ∈ f.hidden.entries ∨ entered (.hidden key) v
  computed : ∀ key v, (key, v) ∈ f'.bindVars.entries →
    (key, v) ∈ f.bindVars.entries ∨ entered (.computed key) v

namespace Fragment

variable {f f' : Fragment} {new : List Expression} {entered : Slot → Var → Prop}
  {s : Slot} {v : Var}

/-- What filters bear that come after `count` others. -/
def Borne (subject : Term) (count : Nat) (new : List Expression) (s : Slot) (v : Var) : Prop :=
  ∃ i g, new[i]? = some g ∧ Bears subject (count + i) g s v

/-- All that is carried was carried before, is entered, or is borne by a new filter. -/
theorem Grows.carries (h : f.Grows f' new entered) (hcarries : f'.Carries s v) :
    f.Carries s v ∨ entered s v ∨ Borne f.subject f.filters.length new s v := by
  cases hcarries with
  | subject hv => exact .inl (.subject (h.subject ▸ hv))
  | type hv => exact (h.type _ hv).imp .type .inl
  | selected hv => exact (h.selected _ _ hv).imp .selected .inl
  | hidden hv => exact (h.hidden _ _ hv).imp .hidden .inl
  | computed hv => exact (h.computed _ _ hv).imp .computed .inl
  | @filter place g _ _ hg hbears =>
      rw [h.subject] at hbears
      rw [h.filters] at hg
      by_cases hplace : place < f.filters.length
      · rw [List.getElem?_append_left hplace] at hg
        exact .inl (.filter hg hbears)
      · have hle : f.filters.length ≤ place := by omega
        rw [List.getElem?_append_right hle] at hg
        refine .inr (.inr ⟨place - f.filters.length, g, hg, ?_⟩)
        have hsum : f.filters.length + (place - f.filters.length) = place := by omega
        rw [hsum]
        exact hbears

/-- A test for existence bears its witness. -/
theorem Borne.of_test {subject : Term} {count : Nat} {m : Mapping} {relation : Relation} {x : Var}
    (h : Borne subject count [m.test relation subject x] s v) : s = .witness count ∧ v = x := by
  obtain ⟨i, g, hg, hbears⟩ := h
  cases i with
  | zero =>
      obtain rfl := Option.some.inj hg
      exact hbears.of_test
  | succ i => cases hg

/-- No filters bear nothing. -/
theorem not_borne_nil {subject : Term} {count : Nat} : ¬ Borne subject count [] s v := by
  rintro ⟨i, g, hg, _⟩
  cases hg

/-- Without a new filter all that is carried was carried before or is entered. -/
theorem Grows.carries_of_nil (h : f.Grows f' [] entered) (hcarries : f'.Carries s v) :
    f.Carries s v ∨ entered s v := by
  rcases h.carries hcarries with hold | hentered | hborne
  · exact .inl hold
  · exact .inr hentered
  · exact (not_borne_nil hborne).elim

/-- A fragment that holds the same carries the same. -/
theorem Carries.of_eq (h : f'.Carries s v) (hsubject : f'.subject = f.subject)
    (htype : f'.typeVar = f.typeVar) (hfilters : f'.filters = f.filters)
    (hprops : f'.props = f.props) (hhidden : f'.hidden = f.hidden)
    (hcomputed : f'.bindVars = f.bindVars) : f.Carries s v := by
  cases h with
  | subject hv => exact .subject (hsubject ▸ hv)
  | type hv => exact .type (htype ▸ hv)
  | filter hg hbears => exact .filter (hfilters ▸ hg) (hsubject ▸ hbears)
  | selected hv => exact .selected (hprops ▸ hv)
  | hidden hv => exact .hidden (hhidden ▸ hv)
  | computed hv => exact .computed (hcomputed ▸ hv)

/-- A selected key is entered with its variable. -/
theorem grows_selected (f : Fragment) (key : String) (x : Var) :
    f.Grows { f with props := f.props.insert key x } [] fun s v => s = .ofKey key ∧ v = x where
  subject := rfl
  type _ := .inl
  filters := (List.append_nil _).symm
  selected k v h := (KeyVars.mem_insert h).imp_right fun heq => by cases heq; exact ⟨rfl, rfl⟩
  hidden _ _ := .inl
  computed _ _ := .inl

/-- The type is entered with its variable, which stands for its key too. -/
theorem grows_type (f : Fragment) (type : MostSpecificType) :
    f.Grows
      { f with
        mandatory := f.mandatory ++ [type.triple]
        filters := f.filters ++ type.filters
        props := f.props.insert "@type" type.typeVar
        typeVar := some type.typeVar }
      type.filters fun s v => s = .type ∧ v = type.typeVar where
  subject := rfl
  type v h := .inr ⟨rfl, (Option.some.inj h).symm⟩
  filters := rfl
  selected k v h := (KeyVars.mem_insert h).imp_right fun heq => by cases heq; exact ⟨rfl, rfl⟩
  hidden _ _ := .inl
  computed _ _ := .inl

end Fragment

namespace Draft

variable {ns : Namespaces} {config : Config} {e : Entity} {key : String} {m : Mapping}
  {d : Draft} {s : Slot} {v : Var}

/-- At first a fragment has its subject only. -/
theorem carries_opening {subject : Term} {a : Allocator}
    (h : (opening ns e subject a).fragment.Carries s v) : s = .subject ∧ subject = .var v := by
  obtain ⟨new, hnew, hgrows⟩ : ∃ new : List Expression, (∀ g ∈ new, g.lead?.isSome) ∧
      (start ns e subject a).fragment.Grows (opening ns e subject a).fragment new
        fun _ _ => False := by
    unfold opening addIdentity
    split
    next relation values x _ _ =>
      refine ⟨_, ?_, rfl, fun _ => .inl, rfl, fun _ _ => .inl, fun _ _ => .inl, fun _ _ => .inl⟩
      intro g hg
      rw [Filter.related_lead ns .iri (Option.mem_toList.mp hg)]
      rfl
    next =>
      exact ⟨[], by simp, rfl, fun _ => .inl, rfl, fun _ _ => .inl, fun _ _ => .inl,
        fun _ _ => .inl⟩
  rcases hgrows.carries h with hstart | hnone | ⟨i, g, hg, hbears⟩
  · cases hstart with
    | subject hv => exact ⟨rfl, hv⟩
    | type hv | filter hv | selected hv | hidden hv | computed hv => cases hv
  · exact hnone.elim
  · have hlead := hnew g (List.mem_of_getElem? hg)
    rw [hbears.lead] at hlead
    cases hlead

/-- The filter of a selected key, and the names in use with it. -/
def propertyFilter (ns : Namespaces) (e : Entity) (key : String) (m : Mapping) (d : Draft) :
    Option Expression × Allocator :=
  let (x, a) := varFor e key (e.condition? key) d.alloc
  match e.condition? key with
  | some c => conditionFilter ns e d.fragment.subject m key x c a
  | none => (none, a)

/-- What a property leaves in use is what its filter leaves. -/
theorem addProperty_alloc : (addProperty ns e key m d).alloc = (propertyFilter ns e key m d).2 :=
  rfl

/-- A property enters the variable of its key. -/
theorem addProperty_grows :
    d.fragment.Grows (addProperty ns e key m d).fragment (propertyFilter ns e key m d).1.toList
      fun s v => s = .ofKey key ∧ v = (varFor e key (e.condition? key) d.alloc).1 where
  subject := rfl
  type _ := .inl
  filters := rfl
  selected k v h := (KeyVars.mem_insert h).imp_right fun heq => by cases heq; exact ⟨rfl, rfl⟩
  hidden _ _ := .inl
  computed _ _ := .inl

/-- A condition on a key that is not selected enters the hidden variable of the key. -/
theorem addHidden_grows {c : Condition} :
    d.fragment.Grows (addHidden ns e key m c d).fragment
      (conditionFilter ns e d.fragment.subject m key (varFor e key (some c) d.alloc).1 c
        (varFor e key (some c) d.alloc).2).1.toList
      fun s v => s = .hidden key ∧ v = (varFor e key (some c) d.alloc).1 where
  subject := rfl
  type _ := .inl
  filters := rfl
  selected _ _ := .inl
  hidden k v h := (KeyVars.mem_insert h).imp_right fun heq => by cases heq; exact ⟨rfl, rfl⟩
  computed _ _ := .inl

/-- A test for existence enters no variable but its witness, which its filter bears. -/
theorem addExistence_grows {relation : Relation} :
    d.fragment.Grows (addExistence e key m relation d).fragment
      [m.test relation d.fragment.subject
        (d.alloc.fresh (key ++ "Exist" ++ toString e.index)).1]
      fun _ _ => False where
  subject := rfl
  type _ := .inl
  filters := rfl
  selected _ _ := .inl
  hidden _ _ := .inl
  computed _ _ := .inl

/-- A computed key enters its own variable. -/
theorem addComputed_grows {relation : BindRelation} {triples : List BindTriple} :
    d.fragment.Grows (addComputed ns config e key relation triples d).fragment []
      fun s v => s = .computed key ∧ v = (d.alloc.join (key ++ toString e.index)).1 where
  subject := rfl
  type _ := .inl
  filters := (List.append_nil _).symm
  selected _ _ := .inl
  hidden _ _ := .inl
  computed k v h := (KeyVars.mem_insert h).imp_right fun heq => by cases heq; exact ⟨rfl, rfl⟩

end Draft

end ObjectGraph
