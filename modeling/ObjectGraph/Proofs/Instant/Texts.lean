import Mathlib.Data.String.Basic
import ObjectGraph.Proofs.Instant.Moments

/-!
# The texts of instants

An instant is written with its date and its time of day in UTC.  No two instants have the
same text (`text_inj`).  For the years from 0 to 9999 the text is a timestamp, which is read
back (`parse?_text`), and the texts come in the order of the instants (`text_lt_iff`);
the text of another year starts with a sign and is no timestamp (`parse?_text_eq_none`).
-/

namespace ObjectGraph.Instant

/-! ## Parts -/

/-- The date of an instant. -/
def date (t : Instant) : Date :=
  Date.ofDays (t.millis / 1000 / 86400)

/-- The second of the day in which an instant lies. -/
def ofDay (t : Instant) : Nat :=
  (t.millis / 1000 % 86400).toNat

def hour (t : Instant) : Nat := t.ofDay / 3600

def minute (t : Instant) : Nat := t.ofDay / 60 % 60

def second (t : Instant) : Nat := t.ofDay % 60 + if t.leap then 1 else 0

def milli (t : Instant) : Nat := (t.millis % 1000).toNat

/-- The time of day of an instant as it is written. -/
def clockChars (t : Instant) : List Char :=
  padded 2 t.hour ++ ':' :: (padded 2 t.minute ++ ':' :: (padded 2 t.second ++
    '.' :: (padded 3 t.milli ++ ['Z'])))

variable {t u : Instant}

/-- The text of an instant is its date and its time of day, with a `T` between them. -/
theorem toList_text (t : Instant) : t.text.toList = dateChars t.date ++ 'T' :: t.clockChars := by
  simp [text, dateChars, clockChars, date, hour, minute, second, milli, ofDay]

/-- The date of an instant is a valid one. -/
theorem isValid_date (t : Instant) : t.date.isValid = true :=
  Date.isValid_ofDays _

/-- The parts of the time of day are below their bounds. -/
theorem clock_lt (t : Instant) :
    t.hour < 24 ∧ t.minute < 60 ∧ t.second ≤ 60 ∧ t.milli < 1000 := by
  have hday : t.ofDay < 86400 := by
    unfold ofDay
    omega
  refine ⟨?_, Nat.mod_lt _ (by decide), ?_, ?_⟩
  · unfold hour
    omega
  · unfold second
    split <;> omega
  · unfold milli
    omega

/-- The parts of an instant are those of its place. -/
theorem place_eq (t : Instant) :
    t.place = toLex ((t.date.toDays * 24 + t.hour) * 60 + t.minute,
      ((t.second * 1000 + t.milli : Nat) : ℤ)) := by
  have hdays : t.date.toDays = t.millis / 1000 / 86400 := Date.toDays_ofDays _
  rw [place, toLex_inj, Prod.mk.injEq, hdays]
  unfold hour minute second milli ofDay
  constructor
  · omega
  · split <;> omega

/-! ## Different texts -/

/-- A year of other than four digits has a sign. -/
theorem yearText_of_not_mem {year : Int} (h : ¬ (0 ≤ year ∧ year ≤ 9999)) :
    ∃ sign, (sign = '-' ∧ year < 0 ∨ sign = '+' ∧ ¬ year < 0) ∧
      yearText year = sign :: padded 4 year.natAbs := by
  refine ⟨if year < 0 then '-' else '+', ?_, if_neg h⟩
  split
  next hnegative => exact .inl ⟨rfl, hnegative⟩
  next hpositive => exact .inr ⟨rfl, hpositive⟩

/-- Digits are no sign. -/
theorem padded_ne_cons {width n : Nat} {sign : Char} {rest : List Char}
    (hsign : sign = '-' ∨ sign = '+') : padded width n ≠ sign :: rest := by
  intro h
  have hmem : sign ∈ padded width n := h ▸ List.mem_cons_self
  have hdigit := isDigit_of_mem_padded hmem
  rcases hsign with rfl | rfl <;> exact absurd hdigit (by decide)

/-- Different years are written differently. -/
theorem yearText_inj {year other : Int} (h : yearText year = yearText other) : year = other := by
  by_cases hyear : 0 ≤ year ∧ year ≤ 9999
  · rw [yearText_of_mem hyear] at h
    by_cases hother : 0 ≤ other ∧ other ≤ 9999
    · rw [yearText_of_mem hother] at h
      have hnat := padded_inj.mp h
      omega
    · obtain ⟨sign, hsign, htext⟩ := yearText_of_not_mem hother
      exact absurd (h.trans htext) (padded_ne_cons (hsign.imp And.left And.left))
  · obtain ⟨sign, hsign, htext⟩ := yearText_of_not_mem hyear
    rw [htext] at h
    by_cases hother : 0 ≤ other ∧ other ≤ 9999
    · rw [yearText_of_mem hother] at h
      exact absurd h.symm (padded_ne_cons (hsign.imp And.left And.left))
    · obtain ⟨sign', hsign', htext'⟩ := yearText_of_not_mem hother
      obtain ⟨rfl, hnat⟩ := List.cons.inj (h.trans htext')
      have hnat := padded_inj.mp hnat
      -- The sign is that of both years.
      rcases hsign with ⟨rfl, hnegative⟩ | ⟨rfl, hpositive⟩
      · have hnegative' : other < 0 := by simpa using hsign'
        omega
      · have hpositive' : ¬ other < 0 := by simpa using hsign'
        omega

/-- Month and day have two digits at most. -/
theorem date_lt (t : Instant) : t.date.month < 100 ∧ t.date.day < 100 := by
  obtain ⟨⟨-, hmonth⟩, -, hday⟩ := Date.isValid_iff.mp t.isValid_date
  have hlength := (Date.daysInMonth_bounds t.date.year t.date.month).2
  omega

/-- **Different instants** have different texts. -/
theorem text_inj (ht : t.Proper) (hu : u.Proper) (h : t.text = u.text) : t = u := by
  have hdate := t.date_lt
  have hdate' := u.date_lt
  have hclock := t.clock_lt
  have hclock' := u.clock_lt
  have hchars := congrArg String.toList h
  rw [toList_text, toList_text] at hchars
  simp only [dateChars, clockChars, List.append_assoc, List.cons_append] at hchars
  obtain ⟨hyear, hrest⟩ := List.append_inj' hchars (by
    simp (disch := omega) only [List.length_cons, List.length_append, length_padded])
  have hyear := yearText_inj hyear
  simp (disch := omega) only [List.cons.injEq, true_and, padded_append_inj] at hrest
  obtain ⟨hmonth, hday, hhour, hminute, hsecond, hmilli, -⟩ := hrest
  have hdays : t.date.toDays = u.date.toDays :=
    (Date.toDays_eq_iff t.isValid_date u.isValid_date).mpr ⟨hyear, hmonth, hday⟩
  refine eq_of_place_eq ht hu ?_
  rw [place_eq, place_eq, hdays, hhour, hminute, hsecond, hmilli]

/-! ## Texts in order -/

/-- The dates of the years with four digits come in the order of their days. -/
theorem dateChars_append_lt_iff {d e : Date} {xs ys : List Char} (hd : d.isValid = true)
    (he : e.isValid = true) (hyear : 0 ≤ d.year ∧ d.year ≤ 9999)
    (hyear' : 0 ≤ e.year ∧ e.year ≤ 9999) :
    dateChars d ++ xs < dateChars e ++ ys ↔
      d.toDays < e.toDays ∨ d.toDays = e.toDays ∧ xs < ys := by
  have hlength := (Date.daysInMonth_bounds d.year d.month).2
  have hlength' := (Date.daysInMonth_bounds e.year e.month).2
  obtain ⟨⟨-, hmonth⟩, -, hday⟩ := Date.isValid_iff.mp hd
  obtain ⟨⟨-, hmonth'⟩, -, hday'⟩ := Date.isValid_iff.mp he
  have hnat : d.year.toNat < e.year.toNat ↔ d.year < e.year := by omega
  have hnat' : d.year.toNat = e.year.toNat ↔ d.year = e.year := by omega
  simp only [dateChars, yearText_of_mem hyear, yearText_of_mem hyear', List.append_assoc,
    List.cons_append]
  simp (disch := omega) only [padded_append_lt_iff, List.cons_lt_cons_self]
  rw [Date.toDays_lt_iff hd he, Date.toDays_eq_iff hd he, hnat, hnat']
  simp only [and_or_left, or_assoc, and_assoc]

/-- **Texts come in the order of the instants**, where years have four digits. -/
theorem text_lt_iff (hyear : 0 ≤ t.date.year ∧ t.date.year ≤ 9999)
    (hyear' : 0 ≤ u.date.year ∧ u.date.year ≤ 9999) : t.text < u.text ↔ t.place < u.place := by
  have hclock := t.clock_lt
  have hclock' := u.clock_lt
  rw [String.lt_iff_toList_lt, toList_text, toList_text,
    dateChars_append_lt_iff t.isValid_date u.isValid_date hyear hyear', place_eq, place_eq,
    Prod.Lex.toLex_lt_toLex]
  simp only [clockChars, List.cons_lt_cons_self]
  simp (disch := omega) only [padded_append_lt_iff, List.cons_lt_cons_self, lt_irrefl, and_false,
    or_false]
  constructor
  · omega
  · omega

/-! ## Texts read back -/

/-- The timestamp that is the text of an instant. -/
def timestamp (t : Instant) (hyear : 0 ≤ t.date.year ∧ t.date.year ≤ 9999) : Timestamp where
  date := t.date
  separator := 'T'
  hour := t.hour
  minute := t.minute
  second := t.second
  fraction := padded 3 t.milli
  zone := .utc 'Z' (.inl rfl)
  year_mem := hyear
  isValid := t.isValid_date
  isSeparator := .inl rfl
  hour_lt := t.clock_lt.1
  minute_lt := t.clock_lt.2.1
  second_le := t.clock_lt.2.2.1
  isDigit _ := isDigit_of_mem_padded

/-- The timestamp of an instant is written as the instant is. -/
theorem chars_timestamp (hyear : 0 ≤ t.date.year ∧ t.date.year ≤ 9999) :
    (t.timestamp hyear).chars = t.text.toList := by
  have hmilli := t.clock_lt.2.2.2
  obtain ⟨d, ds, hds⟩ := List.exists_cons_of_length_pos
    (show 0 < (padded 3 t.milli).length by rw [length_padded (by decide) hmilli]; decide)
  have hfraction : fractionChars (padded 3 t.milli) = '.' :: padded 3 t.milli := by
    rw [hds]
    rfl
  rw [toList_text]
  simp only [Timestamp.chars, timestamp, clockChars, hfraction, Zone.chars, List.cons_append]

/-- A number with three digits is what it is padded to. -/
theorem millisOf_padded {n : Nat} (hn : n < 1000) : millisOf (padded 3 n) = n := by
  rw [millisOf, List.take_left' (length_padded (by decide) hn), natOfDigits_padded]

/-- The text of an instant is read as the instant. -/
theorem instant_timestamp (ht : t.Proper) (hyear : 0 ≤ t.date.year ∧ t.date.year ≤ 9999) :
    (t.timestamp hyear).instant = t := by
  obtain ⟨-, -, hsecond, hmilli⟩ := t.clock_lt
  refine eq_of_place_eq (t.timestamp hyear).proper_instant ht ?_
  rw [place_eq t, place, toLex_inj, Prod.mk.injEq]
  simp only [Timestamp.instant, Timestamp.minutes, timestamp, Zone.minutes, millisOf_padded hmilli,
    beq_iff_eq]
  by_cases hleap : t.second = 60
  · simp only [hleap, if_true]
    omega
  · simp only [hleap, if_false]
    omega

/-- **The text of an instant** is read back, if its year has four digits. -/
theorem parse?_text (ht : t.Proper) (hyear : 0 ≤ t.date.year ∧ t.date.year ≤ 9999) :
    parse? t.text = some t :=
  parse?_eq_some_iff.mpr ⟨t.timestamp hyear, chars_timestamp hyear, instant_timestamp ht hyear⟩

/-- The text of an instant in another year is no timestamp. -/
theorem parse?_text_eq_none (hyear : ¬ (0 ≤ t.date.year ∧ t.date.year ≤ 9999)) :
    parse? t.text = none := by
  by_contra hread
  obtain ⟨u, hread⟩ := Option.ne_none_iff_exists'.mp hread
  obtain ⟨τ, hchars, -⟩ := parse?_eq_some_iff.mp hread
  obtain ⟨sign, hsign, htext⟩ := yearText_of_not_mem hyear
  have hmem := τ.year_mem
  have hlength : (padded 4 τ.date.year.toNat).length = 4 :=
    length_padded (by decide) (by omega)
  obtain ⟨d, ds, hds⟩ := List.exists_cons_of_length_pos
    (show 0 < (padded 4 τ.date.year.toNat).length by rw [hlength]; decide)
  rw [toList_text, dateChars, htext, Timestamp.chars, dateChars, yearText_of_mem τ.year_mem,
    hds] at hchars
  obtain ⟨rfl, -⟩ := List.cons.inj hchars
  exact padded_ne_cons (hsign.imp And.left And.left) hds

end ObjectGraph.Instant
