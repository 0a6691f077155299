import ObjectGraph.Literal
import ObjectGraph.Proofs.Instant.Texts

/-!
# Normal forms of date-times

A value denotes a moment as an integer of milliseconds or as the text of a timestamp.  Both are
written as the text of the instant that the moment lies in (`Denotes.exists_instant`).  So
there is one normal form for a millisecond, whichever way it comes, and for the years from 0
to 9999 the normal forms have the order of the milliseconds (`dateTime?_canonical`).  What is
no timestamp stays as it is, and with it the normal forms of other years.
-/

namespace ObjectGraph

open Json (Value Number)

namespace Moment

/-- The moment a number of milliseconds after the start of 1970. -/
def ofMillis (millis : ℤ) : Moment where
  minute := millis / 60000
  second := (millis % 60000 : ℤ) / 1000
  second_nonneg := by
    have hnonneg : 0 ≤ millis % 60000 := Int.emod_nonneg _ (by decide)
    positivity

/-- The year of a moment in UTC. -/
def year (μ : Moment) : ℤ :=
  (Date.ofDays (μ.minute / 1440)).year

/-- A number of milliseconds lies in no leap second. -/
theorem second_ofMillis_lt (millis : ℤ) : (ofMillis millis).second < 60 := by
  have hlt : millis % 60000 < 60000 := Int.emod_lt_of_pos _ (by decide)
  have hlt : ((millis % 60000 : ℤ) : ℚ) < 60000 := by exact_mod_cast hlt
  show ((millis % 60000 : ℤ) : ℚ) / 1000 < 60
  linarith

/-- A number of milliseconds is a thousandth of a second each. -/
theorem seconds_ofMillis (millis : ℤ) : 1000 * (ofMillis millis).seconds = millis := by
  have hsum : (60000 * (millis / 60000) + millis % 60000 : ℤ) = millis :=
    Int.mul_ediv_add_emod millis 60000
  have hsum : (60000 : ℚ) * (millis / 60000 : ℤ) + (millis % 60000 : ℤ) = millis := by
    exact_mod_cast hsum
  show 1000 * (60 * ((millis / 60000 : ℤ) : ℚ) + ((millis % 60000 : ℤ) : ℚ) / 1000) = millis
  linarith

/-- A number of milliseconds is its own place. -/
theorem truncated_ofMillis (millis : ℤ) :
    (ofMillis millis).truncated = (⟨millis, false⟩ : Instant).place := by
  have hfloor : ⌊1000 * (ofMillis millis).second⌋ = millis % 60000 := by
    have hexact : 1000 * (ofMillis millis).second = ((millis % 60000 : ℤ) : ℚ) := by
      show 1000 * (((millis % 60000 : ℤ) : ℚ) / 1000) = _
      ring
    rw [hexact, Int.floor_intCast]
  rw [truncated, hfloor]
  simp [Instant.place, ofMillis]

end Moment

/-- A timestamp is no leap second if its second is below 60. -/
theorem Timestamp.second_moment_lt {τ : Timestamp} (h : τ.second < 60) : τ.moment.second < 60 := by
  have hfraction := Instant.fractionOf_lt_one τ.isDigit
  have hsecond : (τ.second : ℚ) ≤ 59 := by exact_mod_cast Nat.le_of_lt_succ h
  show (τ.second : ℚ) + Instant.fractionOf τ.fraction < 60
  linarith

namespace Encode

/-- The moment that a value denotes: milliseconds that have a date, or a timestamp. -/
inductive Denotes : Value → Moment → Prop where
  | millis {m : Int} (h : Instant.range.1 ≤ m ∧ m ≤ Instant.range.2) :
      Denotes (.num (.int m)) (.ofMillis m)
  | timestamp {s : String} (τ : Timestamp) (h : τ.chars = s.toList) : Denotes (.str s) τ.moment

variable {v : Value} {μ : Moment} {s : String}

/-- **A value is written** as the instant of its moment. -/
theorem Denotes.exists_instant (h : Denotes v μ) :
    ∃ t : Instant, t.Proper ∧ t.place = μ.truncated ∧ dateTime? v = some t.text := by
  cases h with
  | @millis m h =>
      refine ⟨⟨m, false⟩, fun hleap => absurd hleap Bool.false_ne_true,
        (Moment.truncated_ofMillis m).symm, ?_⟩
      simp [dateTime?, Instant.ofMillis?, h]
  | timestamp τ h =>
      refine ⟨τ.instant, τ.proper_instant, τ.place_instant, ?_⟩
      simp [dateTime?, Instant.parse?_eq_some_iff.mpr ⟨τ, h, rfl⟩]

/-- The instant has the year of the moment. -/
theorem year_date {t : Instant} (h : t.place = μ.truncated) : t.date.year = μ.year := by
  have hminute : t.millis / 60000 = μ.minute := (Prod.mk.inj (toLex_inj.mp h)).1
  have hdays : t.millis / 1000 / 86400 = μ.minute / 1440 := by omega
  rw [Instant.date, hdays, Moment.year]

/-- What is written of an instant stays as it is. -/
theorem dateTime?_text {t : Instant} (ht : t.Proper) : dateTime? (.str t.text) = some t.text := by
  by_cases hyear : 0 ≤ t.date.year ∧ t.date.year ≤ 9999
  · simp [dateTime?, Instant.parse?_text ht hyear]
  · simp [dateTime?, Instant.parse?_text_eq_none hyear]

/-- A normal form is its own normal form. -/
theorem dateTime?_idem (h : dateTime? v = some s) : dateTime? (.str s) = some s := by
  cases v with
  | str text =>
      cases hread : Instant.parse? text with
      | none =>
          obtain rfl : text = s := by simpa [dateTime?, hread] using h
          simp [dateTime?, hread]
      | some t =>
          obtain rfl : t.text = s := by simpa [dateTime?, hread] using h
          obtain ⟨τ, -, rfl⟩ := Instant.parse?_eq_some_iff.mp hread
          exact dateTime?_text τ.proper_instant
  | num n =>
      cases n with
      | int m =>
          obtain ⟨t, ht, rfl⟩ := Option.map_eq_some_iff.mp h
          unfold Instant.ofMillis? at ht
          split at ht
          next =>
            obtain rfl := Option.some.inj ht
            exact dateTime?_text fun hleap => absurd hleap Bool.false_ne_true
          next => cases ht
      | double x => cases h
  | null | bool | arr | obj => cases h

variable {w : Value} {ν : Moment} {t : String}

/-- Two values are written alike if their moments lie in one millisecond. -/
theorem Denotes.eq_iff (hv : Denotes v μ) (hw : Denotes w ν) (hs : dateTime? v = some s)
    (ht : dateTime? w = some t) : s = t ↔ μ.truncated = ν.truncated := by
  obtain ⟨a, ha, hplace, htext⟩ := hv.exists_instant
  obtain ⟨b, hb, hplace', htext'⟩ := hw.exists_instant
  obtain rfl := Option.some.inj (hs.symm.trans htext)
  obtain rfl := Option.some.inj (ht.symm.trans htext')
  rw [← hplace, ← hplace']
  constructor
  · intro h
    rw [Instant.text_inj ha hb h]
  · intro h
    rw [Instant.eq_of_place_eq ha hb h]

/-- In the years with four digits values are written in the order of their milliseconds. -/
theorem Denotes.lt_iff (hv : Denotes v μ) (hw : Denotes w ν) (hs : dateTime? v = some s)
    (ht : dateTime? w = some t) (hyear : 0 ≤ μ.year ∧ μ.year ≤ 9999)
    (hyear' : 0 ≤ ν.year ∧ ν.year ≤ 9999) : s < t ↔ μ.truncated < ν.truncated := by
  obtain ⟨a, -, hplace, htext⟩ := hv.exists_instant
  obtain ⟨b, -, hplace', htext'⟩ := hw.exists_instant
  obtain rfl := Option.some.inj (hs.symm.trans htext)
  obtain rfl := Option.some.inj (ht.symm.trans htext')
  rw [Instant.text_lt_iff (by rwa [year_date hplace]) (by rwa [year_date hplace']), hplace, hplace']

/-- In the years with four digits a normal form is a timestamp of the millisecond. -/
theorem Denotes.exists_timestamp (h : Denotes v μ) (hs : dateTime? v = some s)
    (hyear : 0 ≤ μ.year ∧ μ.year ≤ 9999) :
    ∃ τ : Timestamp, τ.chars = s.toList ∧ τ.moment.truncated = μ.truncated := by
  obtain ⟨t, ht, hplace, htext⟩ := h.exists_instant
  obtain rfl := Option.some.inj (hs.symm.trans htext)
  have hyear : 0 ≤ t.date.year ∧ t.date.year ≤ 9999 := by rwa [year_date hplace]
  refine ⟨t.timestamp hyear, Instant.chars_timestamp hyear, ?_⟩
  rw [← Timestamp.place_instant, Instant.instant_timestamp ht hyear, hplace]

/-- **Normal forms are canonical.**  Writing a date-time once more changes nothing.  Values that
denote moments have normal forms, and outside of leap seconds these are the same exactly if
the moments agree to the millisecond.  In the years from 0 to 9999 the normal forms have
the order of the milliseconds, leap seconds in their place, and the one of an integer is that
of all timestamps of the millisecond, one of which it is. -/
theorem dateTime?_canonical :
    (∀ v s, dateTime? v = some s → dateTime? (.str s) = some s) ∧
    (∀ v w μ ν, Denotes v μ → Denotes w ν →
      ∃ s t, dateTime? v = some s ∧ dateTime? w = some t ∧
        (μ.second < 60 → ν.second < 60 →
          (s = t ↔ ⌊1000 * μ.seconds⌋ = ⌊1000 * ν.seconds⌋)) ∧
        (0 ≤ μ.year ∧ μ.year ≤ 9999 → 0 ≤ ν.year ∧ ν.year ≤ 9999 →
          (s < t ↔ μ.truncated < ν.truncated) ∧
          (μ.second < 60 → ν.second < 60 →
            (s < t ↔ ⌊1000 * μ.seconds⌋ < ⌊1000 * ν.seconds⌋)))) ∧
    (∀ m : Int, Instant.range.1 ≤ m ∧ m ≤ Instant.range.2 →
      0 ≤ (Moment.ofMillis m).year ∧ (Moment.ofMillis m).year ≤ 9999 →
        ∃ s, dateTime? (.num (.int m)) = some s ∧
          (∃ τ : Timestamp, τ.chars = s.toList ∧ ⌊1000 * τ.moment.seconds⌋ = m) ∧
          ∀ text (τ : Timestamp), τ.chars = text.toList → τ.second < 60 →
            ⌊1000 * τ.moment.seconds⌋ = m → dateTime? (.str text) = some s) := by
  have hwritten : ∀ {v μ}, Denotes v μ → ∃ s, dateTime? v = some s := fun h =>
    let ⟨t, _, _, htext⟩ := h.exists_instant
    ⟨t.text, htext⟩
  refine ⟨fun v s => dateTime?_idem, fun v w μ ν hv hw => ?_, fun m hm hyear => ?_⟩
  · obtain ⟨s, hs⟩ := hwritten hv
    obtain ⟨t, ht⟩ := hwritten hw
    refine ⟨s, t, hs, ht, fun hμ hν => ?_, fun hyear hyear' => ⟨?_, fun hμ hν => ?_⟩⟩
    · rw [hv.eq_iff hw hs ht, Moment.truncated_eq_iff hμ hν]
    · exact hv.lt_iff hw hs ht hyear hyear'
    · rw [hv.lt_iff hw hs ht hyear hyear', Moment.truncated_lt_iff hμ hν]
  · have hdenotes : Denotes (.num (.int m)) (.ofMillis m) := .millis hm
    have hbelow := Moment.second_ofMillis_lt m
    have hmillis : ⌊1000 * (Moment.ofMillis m).seconds⌋ = m := by
      rw [Moment.seconds_ofMillis, Int.floor_intCast]
    obtain ⟨s, hs⟩ := hwritten hdenotes
    refine ⟨s, hs, ?_, fun text τ hchars hsecond hsame => ?_⟩
    · obtain ⟨τ, hchars, hsame⟩ := hdenotes.exists_timestamp hs hyear
      have hregular := Moment.second_lt_of_truncated_eq hsame hbelow
      refine ⟨τ, hchars, ?_⟩
      rw [(Moment.truncated_eq_iff hregular hbelow).mp hsame, hmillis]
    · have htext : Denotes (.str text) τ.moment := .timestamp τ hchars
      obtain ⟨t, ht⟩ := hwritten htext
      have heq : s = t := by
        rw [hdenotes.eq_iff htext hs ht,
          Moment.truncated_eq_iff hbelow (Timestamp.second_moment_lt hsecond), hmillis, hsame]
      rw [ht, heq]

/-- Half a millisecond before 1970, an hour east of Greenwich. -/
def newYear : Timestamp where
  date := ⟨1970, 1, 1⟩
  separator := 't'
  hour := 0
  minute := 59
  second := 59
  fraction := ['9', '9', '9', '5']
  zone := .offset '+' 1 0 (.inl rfl) (by decide) (by decide)
  year_mem := by decide
  isValid := by decide
  isSeparator := .inr (.inl rfl)
  hour_lt := by decide
  minute_lt := by decide
  second_le := by decide
  isDigit := List.all_eq_true.mp rfl

/-- The first millisecond before 1970 has one normal form, from its number and from the text of
a moment that it contains. -/
theorem dateTime?_canonical_newYear :
    dateTime? (.num (.int (-1))) = dateTime? (.str "1970-01-01t00:59:59.9995+01:00") ∧
      dateTime? (.num (.int (-1))) = some "1969-12-31T23:59:59.999Z" := by
  have hmillis : ⌊1000 * newYear.moment.seconds⌋ = -1 := by
    decide +kernel
  obtain ⟨s, hs, -, hsame⟩ := dateTime?_canonical.2.2 (-1) (by decide) (by decide)
  refine ⟨?_, by decide +kernel⟩
  rw [hs, hsame _ newYear (by decide) (by decide) hmillis]

end Encode

end ObjectGraph
