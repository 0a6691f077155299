import ObjectGraph.Proofs.Context.Following

/-!
# Circles of definitions

From a value the search for an IRI goes on to what the object defines (`Context.definition?`),
from there to the next definition, and so on (`Context.next?`).  The chain of these values
stops at a keyword, at an IRI, compact or absolute, of which the object says nothing, and at a
name that it does not define otherwise; or else it comes back to a value, since each value
behind the first one is the target of a member.

The search written down without fuel (`Context.search`) always ends, as every step sees one
more of the targets (`unseen_lt`), and the fuel of `Context.resolve` is as much as it takes
(`follow_eq_search`).  It fails exactly on the chains that do not stop, at the first value
that such a chain comes back to (`resolve_fails_iff_circle`).
-/

namespace ObjectGraph.Context

open Json (Value Object)

/-- What an object defines a name as: the text that stands under it, or else the text under
`@id` in the object that does. -/
def definition? (members : Object) (name : String) : Option String :=
  match members.get? name with
  | some (.str text) => some text
  | some (.obj entry) =>
    match Assoc.get? entry "@id" with
    | some (.str text) => some text
    | _ => none
  | _ => none

/-- The definition of the object that the search goes on to from a value: a compact IRI goes
on to the definition of its prefix, and any other value, unless it is absolute, to its own
one if that is another value. -/
def next? (members : Object) (value : String) : Option String :=
  if Iri.isKeyword value then none
  else
    match Iri.compactParts? value with
    | some (name, _) => definition? members name
    | none =>
      if Iri.isAbsolute value then none
      else (definition? members value).filter (· ≠ value)

/-- The values behind each other from a first one, as far as there are any. -/
def chain (members : Object) (value : String) : Nat → Option String
  | 0 => some value
  | n + 1 => (chain members value n).bind (next? members)

/-- A value that a chain comes back to, and does so before it comes back to any other. -/
def ComesBack (members : Object) (value back : String) : Prop :=
  ∃ m n, m < n ∧ chain members value m = some back ∧ chain members value n = some back ∧
    ∀ i j, i < j → j < n → chain members value i ≠ chain members value j

/-- What stands behind the prefix of a compact IRI; nothing behind any other value. -/
def behind (value : String) : String :=
  ((Iri.compactParts? value).map (·.2)).getD ""

/-- The IRI of a value from which the search does not go on. -/
def ending (base : Context) (vocab : Option String) (value : String) : String :=
  match Iri.compactParts? value with
  | some (name, rest) => ((base.iriOf? name).map (· ++ rest)).getD value
  | none => if Iri.isAbsolute value then value else inheritedIri base vocab value

/-- The targets that the members of an object name. -/
def targets (members : Object) : List String :=
  members.keys.filterMap (definition? members)

/-- How many targets are still to be seen where the search comes to a value, and one more if
the value is no target itself. -/
def unseen (members : Object) (seen : List String) (value : String) : Nat :=
  ((targets members).filter (· ∉ seen)).length + if value ∈ targets members then 0 else 1

variable {members : Object} {base : Context} {vocab : Option String}
  {seen : List String} {value target name : String}

/-! ## Steps -/

/-- The search looks a definition up as the object has it. -/
theorem localTarget?_eq (members : Object) (name : String) :
    localTarget? members name = definition? members name := by
  unfold localTarget? definition?
  cases members.get? name with
  | none => rfl
  | some v =>
      cases v with
      | null | bool | num | str | arr => rfl
      | obj entry =>
          cases hid : Assoc.get? entry "@id" with
          | none => simp [hid]
          | some w => cases w <;> simp [hid, Value.asText?]

/-- A definition is a target of the object. -/
theorem mem_targets (h : definition? members name = some target) : target ∈ targets members := by
  have hsome : members.get? name ≠ none := by
    intro hnone
    rw [definition?, hnone] at h
    cases h
  rw [ne_eq, Assoc.get?_eq_none_iff, Decidable.not_not] at hsome
  exact List.mem_filterMap.mpr ⟨name, hsome, h⟩

/-- What the search goes on to is a target. -/
theorem mem_targets_of_next? (h : next? members value = some target) :
    target ∈ targets members := by
  unfold next? at h
  split at h
  next => cases h
  next =>
    split at h
    next => exact mem_targets h
    next =>
      split at h
      next => cases h
      next => exact mem_targets (Option.filter_eq_some_iff.mp h).1

/-- **Every step sees a new target**, but for the first value, which need not be one. -/
theorem unseen_lt (hseen : value ∉ seen) (h : next? members value = some target) :
    unseen members (value :: seen) target < unseen members seen value := by
  have hrest : (targets members).filter (· ∉ value :: seen) =
      ((targets members).filter (· ∉ seen)).filter (· ≠ value) := by
    rw [List.filter_filter]
    exact List.filter_congr fun t _ => by simp [not_or]
  unfold unseen
  rw [if_pos (mem_targets_of_next? h), hrest]
  by_cases hvalue : value ∈ targets members
  · have hmem : value ∈ (targets members).filter (· ∉ seen) := by simp [hvalue, hseen]
    have hlt := List.length_filter_lt_length_iff_exists (p := (· ≠ value)).mpr
      ⟨value, hmem, by simp⟩
    omega
  · have hle := List.length_filter_le (· ≠ value) ((targets members).filter (· ∉ seen))
    rw [if_neg hvalue]
    omega

/-- At the start fewer targets are to be seen than the fuel is for. -/
theorem unseen_nil_lt (members : Object) (value : String) :
    unseen members [] value < members.length + 2 := by
  have htargets : (targets members).length ≤ members.length := by
    calc (targets members).length
        ≤ members.keys.length := List.length_filterMap_le _ _
      _ = members.length := List.length_map _
  have hfilter := List.length_filter_le (· ∉ ([] : List String)) (targets members)
  unfold unseen
  split <;> omega

/-! ## The search without fuel -/

/-- The search for the IRI of a value, behind values that it has seen. -/
def search (members : Object) (base : Context) (vocab : Option String) (seen : List String)
    (value : String) : Except ContextError String :=
  if Iri.isKeyword value then .ok value
  else if value ∈ seen then .error (.invalidMapping value)
  else
    match _ : next? members value with
    | some target =>
      (search members base vocab (value :: seen) target).map (· ++ behind value)
    | none => .ok (ending base vocab value)
termination_by unseen members seen value
decreasing_by exact unseen_lt ‹_› ‹_›

/-- One step with fuel: to the next definition, or to the end. -/
theorem follow_succ (fuel : Nat) :
    follow members base vocab (fuel + 1) seen value =
      if Iri.isKeyword value then .ok value
      else if value ∈ seen then .error (.invalidMapping value)
      else
        match next? members value with
        | some target =>
          (follow members base vocab fuel (value :: seen) target).map (· ++ behind value)
        | none => .ok (ending base vocab value) := by
  rw [follow]
  simp only [localTarget?_eq]
  split
  next => rfl
  next hword =>
    split
    next => rfl
    next =>
      cases hparts : Iri.compactParts? value with
      | some parts =>
          have hnext : next? members value = definition? members parts.1 := by
            simp [next?, hword, hparts]
          cases htarget : definition? members parts.1 with
          | some target =>
              simp only [hnext, htarget, behind, hparts]
              cases follow members base vocab fuel (value :: seen) target <;> rfl
          | none =>
              simp only [hnext, htarget, ending, hparts]
              cases base.iriOf? parts.1 <;> rfl
      | none =>
          cases habsolute : Iri.isAbsolute value with
          | true => simp [next?, ending, hword, hparts, habsolute]
          | false =>
              have hnext : next? members value =
                  (definition? members value).filter (· ≠ value) := by
                simp [next?, hword, hparts, habsolute]
              cases htarget : definition? members value with
              | none => simp [hnext, htarget, ending, hparts, habsolute]
              | some target =>
                  by_cases hself : target = value
                  · simp [hnext, htarget, ending, hparts, habsolute, hself, Option.filter]
                  · have hgoes : next? members value = some target := by
                      simp [hnext, htarget, hself]
                    simp only [hgoes, behind, hparts, if_neg hself]
                    cases follow members base vocab fuel (value :: seen) target <;>
                      simp [Except.map]

/-- **Fuel for the targets still to be seen is enough.** -/
theorem follow_eq_search {fuel : Nat} (hfuel : unseen members seen value < fuel) :
    follow members base vocab fuel seen value = search members base vocab seen value := by
  obtain ⟨fuel, rfl⟩ : ∃ n, fuel = n + 1 := ⟨fuel - 1, by omega⟩
  fun_induction search members base vocab seen value generalizing fuel with
  | case1 seen value hword => rw [follow_succ, if_pos hword]
  | case2 seen value hword hseen => rw [follow_succ, if_neg hword, if_pos hseen]
  | case3 seen value hword hseen target hnext ih =>
      have hlt := unseen_lt hseen hnext
      obtain ⟨n, rfl⟩ : ∃ n, fuel = n + 1 := ⟨fuel - 1, by omega⟩
      rw [follow_succ, if_neg hword, if_neg hseen, hnext, ← ih n (by omega)]
  | case4 seen value hword hseen hnext => rw [follow_succ, if_neg hword, if_neg hseen, hnext]

/-! ## Chains -/

/-- A chain goes on from each of its values as it would from there. -/
theorem chain_add (members : Object) (value : String) (m n : Nat) :
    chain members value (m + n) = (chain members value m).bind (chain members · n) := by
  induction n with
  | zero => simp [chain]
  | succ n ih => rw [← Nat.add_assoc, chain, ih, Option.bind_assoc]; rfl

/-- The chain of a value goes on as that of the next one. -/
theorem chain_succ_of_next? (h : next? members value = some target) (n : Nat) :
    chain members value (n + 1) = chain members target n := by
  rw [Nat.add_comm, chain_add]
  simp [chain, h]

/-- A chain has no gap. -/
theorem isSome_chain_of_le {m n : Nat} (h : (chain members value n).isSome) (hle : m ≤ n) :
    (chain members value m).isSome := by
  obtain ⟨k, rfl⟩ := Nat.exists_eq_add_of_le hle
  rw [chain_add] at h
  exact Option.isSome_of_isSome_bind h

/-- A chain that comes back does so again and again. -/
theorem isSome_chain_of_comesBack {back : String} (h : ComesBack members value back) (k : Nat) :
    (chain members value k).isSome := by
  obtain ⟨m, n, hlt, hm, hn, -⟩ := h
  have hround : chain members back (n - m) = some back := by
    have hsum : m + (n - m) = n := by omega
    rw [← hsum, chain_add, hm] at hn
    exact hn
  have hrounds : ∀ j, chain members back ((n - m) * j) = some back := by
    intro j
    induction j with
    | zero => rfl
    | succ j ih => rw [Nat.mul_succ, chain_add, ih, Option.bind_some, hround]
  have hfar : (chain members value (m + (n - m) * k)).isSome := by
    rw [chain_add, hm, Option.bind_some, hrounds k, Option.isSome_some]
  have hle : k ≤ (n - m) * k := Nat.le_mul_of_pos_left k (by omega)
  exact isSome_chain_of_le hfar (by omega)

/-- There is one value that a chain comes back to first. -/
theorem ComesBack.unique {back other : String} (h : ComesBack members value back)
    (h' : ComesBack members value other) : back = other := by
  obtain ⟨m, n, hlt, hm, hn, hfirst⟩ := h
  obtain ⟨m', n', hlt', hm', hn', hfirst'⟩ := h'
  rcases Nat.lt_trichotomy n n' with h | rfl | h
  · exact (hfirst' m n hlt h (hm.trans hn.symm)).elim
  · exact Option.some.inj (hn.symm.trans hn')
  · exact (hfirst m' n' hlt' h (hm'.trans hn'.symm)).elim

/-- A name that leads to an IRI has a chain that stops. -/
theorem Leads.chain_stops {iri : String} (h : Leads members base vocab value iri) :
    ∃ n, chain members value n = none := by
  have hstop : ∀ w, next? members w = none → ∃ n, chain members w n = none := fun w hw =>
    ⟨1, hw⟩
  have hgo : ∀ w target, next? members w = some target →
      (∃ n, chain members target n = none) → ∃ n, chain members w n = none := by
    rintro w target hw ⟨n, hn⟩
    exact ⟨n + 1, (chain_succ_of_next? hw n).trans hn⟩
  induction h with
  | @keyword w hw => exact hstop w (by simp [next?, hw])
  | @compact w name rest target stem hw hparts htarget h ih =>
      exact hgo w target (by simp [next?, hw, hparts, ← localTarget?_eq, htarget]) ih
  | @inherited w name rest stem hw hparts htarget hbase =>
      exact hstop w (by simp [next?, hw, hparts, ← localTarget?_eq, htarget])
  | @foreign w name rest hw hparts htarget hbase =>
      exact hstop w (by simp [next?, hw, hparts, ← localTarget?_eq, htarget])
  | @absolute w hw hparts habsolute => exact hstop w (by simp [next?, hw, hparts, habsolute])
  | @term w target iri hw hparts habsolute htarget hne h ih =>
      exact hgo w target
        (by simp [next?, hw, hparts, habsolute, ← localTarget?_eq, htarget, hne]) ih
  | @word w hw hparts habsolute hself =>
      exact hstop w (by simpa [next?, hw, hparts, habsolute, ← localTarget?_eq] using hself)

/-! ## Failures -/

/-- The search has come along a chain to the value at a place: it has seen the values in front
of that place, all different. -/
structure Visited (members : Object) (start : String) (seen : List String) (value : String)
    (n : Nat) : Prop where
  reached : chain members start n = some value
  mem_iff : ∀ w, w ∈ seen ↔ ∃ m < n, chain members start m = some w
  apart : ∀ i j, i < j → j < n → chain members start i ≠ chain members start j

/-- The search starts at the first value of the chain. -/
theorem Visited.start (members : Object) (start : String) :
    Visited members start [] start 0 where
  reached := rfl
  mem_iff := by simp
  apart := by omega

/-- A value that is new joins those that are seen. -/
theorem Visited.step {start : String} {n : Nat} (h : Visited members start seen value n)
    (hseen : value ∉ seen) (hnext : next? members value = some target) :
    Visited members start (value :: seen) target (n + 1) where
  reached := by rw [chain, h.reached, Option.bind_some, hnext]
  mem_iff := by
    intro w
    rw [List.mem_cons, h.mem_iff]
    constructor
    · rintro (rfl | ⟨m, hm, hw⟩)
      · exact ⟨n, by omega, h.reached⟩
      · exact ⟨m, by omega, hw⟩
    · rintro ⟨m, hm, hw⟩
      by_cases hlast : m = n
      · subst hlast
        exact .inl (Option.some.inj (hw.symm.trans h.reached))
      · exact .inr ⟨m, by omega, hw⟩
  apart := by
    intro i j hij hj
    by_cases hlast : j = n
    · subst hlast
      intro heq
      exact hseen ((h.mem_iff value).mpr ⟨i, hij, heq.trans h.reached⟩)
    · exact h.apart i j hij (by omega)

/-- **The search fails at the first value that it has seen.** -/
theorem Visited.search_fails {start : String} {n : Nat} {e : ContextError}
    (h : Visited members start seen value n)
    (hfails : search members base vocab seen value = .error e) :
    ∃ back, e = .invalidMapping back ∧ ComesBack members start back := by
  fun_induction search members base vocab seen value generalizing n with
  | case1 seen value hword => cases hfails
  | case2 seen value hword hseen =>
      cases hfails
      obtain ⟨m, hm, hvalue⟩ := (h.mem_iff value).mp hseen
      exact ⟨value, rfl, m, n, hm, hvalue, h.reached, h.apart⟩
  | case3 seen value hword hseen target hnext ih =>
      refine ih (h.step hseen hnext) ?_
      cases hinner : search members base vocab (value :: seen) target with
      | error x => simpa [hinner, Except.map] using hfails
      | ok stem => simp [hinner, Except.map] at hfails
  | case4 seen value hword hseen hnext => cases hfails

/-- The fuel that the search has is as much as it takes. -/
theorem resolve_eq_search (members : Object) (base : Context) (vocab : Option String)
    (value : String) :
    resolve members base vocab value = search members base vocab [] value :=
  follow_eq_search (unseen_nil_lt members value)

/-- A search that fails has come back to a value. -/
theorem comesBack_of_error {e : ContextError} (h : resolve members base vocab value = .error e) :
    ∃ back, e = .invalidMapping back ∧ ComesBack members value back := by
  rw [resolve_eq_search] at h
  exact (Visited.start members value).search_fails h

/-- A chain that does not stop makes the search fail, at a value that it comes back to. -/
theorem exists_error_of_endless (h : ∀ n, (chain members value n).isSome)
    (base : Context) (vocab : Option String) :
    ∃ back, resolve members base vocab value = .error (.invalidMapping back) ∧
      ComesBack members value back := by
  cases hresolve : resolve members base vocab value with
  | error e =>
      obtain ⟨back, rfl, hcomes⟩ := comesBack_of_error hresolve
      exact ⟨back, rfl, hcomes⟩
  | ok iri =>
      obtain ⟨n, hn⟩ := (leads_of_follow hresolve).chain_stops
      simpa [hn] using h n

/-- **The search for an IRI always ends, and fails exactly on circles.**  With the fuel that it
has, it is the search without fuel.  It fails if the chain of definitions from the value on
does not stop, and finds an IRI if it does.  A chain that does not stop comes back to a value,
and the first such value is the one that the search fails at. -/
theorem resolve_fails_iff_circle (members : Object) (base : Context) (vocab : Option String)
    (value : String) :
    resolve members base vocab value = search members base vocab [] value ∧
      ((∃ back, resolve members base vocab value = .error (.invalidMapping back)) ↔
        ∀ n, (chain members value n).isSome) ∧
      ((∃ iri, resolve members base vocab value = .ok iri) ↔
        ∃ n, chain members value n = none) ∧
      ((∀ n, (chain members value n).isSome) ↔ ∃ back, ComesBack members value back) ∧
      ∀ back, resolve members base vocab value = .error (.invalidMapping back) ↔
        ComesBack members value back := by
  have hfails : (∃ back, resolve members base vocab value = .error (.invalidMapping back)) ↔
      ∀ n, (chain members value n).isSome := by
    constructor
    · rintro ⟨back, hfailed⟩
      obtain ⟨w, -, hcomes⟩ := comesBack_of_error hfailed
      exact isSome_chain_of_comesBack hcomes
    · intro hall
      obtain ⟨back, hfailed, -⟩ := exists_error_of_endless hall base vocab
      exact ⟨back, hfailed⟩
  have hfinds : (∃ iri, resolve members base vocab value = .ok iri) ↔
      ∃ n, chain members value n = none := by
    constructor
    · rintro ⟨iri, hiri⟩
      exact (leads_of_follow hiri).chain_stops
    · rintro ⟨n, hn⟩
      cases hresolve : resolve members base vocab value with
      | ok iri => exact ⟨iri, rfl⟩
      | error e =>
          obtain ⟨back, -, hcomes⟩ := comesBack_of_error hresolve
          simpa [hn] using isSome_chain_of_comesBack hcomes n
  have hcircle : (∀ n, (chain members value n).isSome) ↔ ∃ back, ComesBack members value back := by
    constructor
    · intro hall
      obtain ⟨back, -, hcomes⟩ := exists_error_of_endless hall base vocab
      exact ⟨back, hcomes⟩
    · rintro ⟨back, hcomes⟩
      exact isSome_chain_of_comesBack hcomes
  have hfirst : ∀ back, resolve members base vocab value = .error (.invalidMapping back) ↔
      ComesBack members value back := by
    intro back
    constructor
    · intro hfailed
      obtain ⟨w, hw, hcomes⟩ := comesBack_of_error hfailed
      cases hw
      exact hcomes
    · intro hcomes
      obtain ⟨w, hfailed, hcomes'⟩ :=
        exists_error_of_endless (isSome_chain_of_comesBack hcomes) base vocab
      rw [hfailed, hcomes'.unique hcomes]
  exact ⟨resolve_eq_search members base vocab value, hfails, hfinds, hcircle, hfirst⟩

/-- Two prefixes that are defined under each other, one as a text and one as an object. -/
def crossed : Object :=
  [("a", .str "b:x"), ("b", .obj [("@id", .str "a:y")])]

/-- From a compact IRI behind it, the search enters the circle and fails where it closes. -/
theorem resolve_fails_iff_circle_crossed :
    (List.range 5).map (chain crossed "a:z") =
        [some "a:z", some "b:x", some "a:y", some "b:x", some "a:y"] ∧
      (∀ n, (chain crossed "a:z" n).isSome) ∧
      resolve crossed .empty none "a:z" = .error (.invalidMapping "b:x") := by
  have hplaces : (List.range 5).map (chain crossed "a:z") =
      [some "a:z", some "b:x", some "a:y", some "b:x", some "a:y"] := by decide +kernel
  have hcomes : ComesBack crossed "a:z" "b:x" := by
    have hapart : ∀ j < 3, ∀ i < j, chain crossed "a:z" i ≠ chain crossed "a:z" j := by
      decide +kernel
    exact ⟨1, 3, by decide, by decide +kernel, by decide +kernel,
      fun i j hij hj => hapart j hj i hij⟩
  obtain ⟨-, -, -, hendless, hfails⟩ := resolve_fails_iff_circle crossed .empty none "a:z"
  exact ⟨hplaces, hendless.mpr ⟨"b:x", hcomes⟩, (hfails "b:x").mpr hcomes⟩

end ObjectGraph.Context
