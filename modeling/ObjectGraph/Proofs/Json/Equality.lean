import ObjectGraph.Json.Value

/-!
# Telling values apart

Whether two values are the same, member by member and in the same order, is decided by
`Value.isSame`, so that what a program makes of a concrete input can be computed.  Values
that are collected one by one, unless an equal one is there, are those that differ from
all in front of them (`foldl_addNew`).
-/

namespace ObjectGraph.Json.Value

mutual

/-- Whether two values are the same, the order of members included. -/
def isSame : Value → Value → Bool
  | .null, .null => true
  | .bool a, .bool b => a == b
  | .num m, .num n => m == n
  | .str s, .str t => s == t
  | .arr vs, .arr ws => areSame vs ws
  | .obj vs, .obj ws => haveSame vs ws
  | _, _ => false

/-- Whether two lists of values are the same. -/
def areSame : List Value → List Value → Bool
  | [], [] => true
  | v :: vs, w :: ws => isSame v w && areSame vs ws
  | _, _ => false

/-- Whether two lists of members are the same. -/
def haveSame : List (String × Value) → List (String × Value) → Bool
  | [], [] => true
  | (k, v) :: vs, (l, w) :: ws => k == l && isSame v w && haveSame vs ws
  | _, _ => false

end

mutual

/-- The test finds exactly the values that are equal. -/
theorem isSame_iff : (v w : Value) → (isSame v w = true ↔ v = w)
  | .null, w | .bool _, w | .num _, w | .str _, w => by cases w <;> simp [isSame]
  | .arr vs, w => by cases w <;> simp [isSame, areSame_iff vs]
  | .obj vs, w => by cases w <;> simp [isSame, haveSame_iff vs]

theorem areSame_iff : (vs ws : List Value) → (areSame vs ws = true ↔ vs = ws)
  | [], ws => by cases ws <;> simp [areSame]
  | v :: vs, ws => by cases ws <;> simp [areSame, isSame_iff v, areSame_iff vs]

theorem haveSame_iff : (vs ws : List (String × Value)) → (haveSame vs ws = true ↔ vs = ws)
  | [], ws => by cases ws <;> simp [haveSame]
  | (_, v) :: vs, [] => by simp [haveSame]
  | (_, v) :: vs, (_, w) :: ws => by simp [haveSame, isSame_iff v, haveSame_iff vs]

end

instance : DecidableEq Value := fun v w => decidable_of_iff _ (isSame_iff v w)

/-- Collecting new values is leaving out all but the first of equal ones. -/
theorem foldl_addNew (vs : List Value) :
    vs.foldl addNew [] = vs.eraseDupsBy fun v w => w.same v := by
  have hloop : ∀ vs seen : List Value,
      vs.foldl addNew seen = List.eraseDupsBy.loop (fun v w => w.same v) vs seen.reverse := by
    intro vs
    induction vs with
    | nil => simp [List.eraseDupsBy.loop]
    | cons v rest ih =>
        intro seen
        have hany : seen.reverse.any (fun w => w.same v) = v.isIn seen := by
          simp [isIn]
        rw [List.foldl_cons, ih, List.eraseDupsBy.loop, hany, addNew]
        cases v.isIn seen <;> simp
  exact hloop vs []

end ObjectGraph.Json.Value
