import Mathlib.Order.Monotone.Basic
import Mathlib.Tactic.IntervalCases
import ObjectGraph.Calendar

/-!
# Days and dates

Months are counted from March of the year 0.  `daysBefore` says how many days lie before a
month, and a month is as long as the calendar says (`daysBefore_succ`), so that the day after
a date has the next number (`toDays_next`).  Every day is that of one date: `ofDays` gives a
date that exists (`isValid_ofDays`) and has the number (`toDays_ofDays`), and dates have the
order of their days (`toDays_lt_iff`).
-/

namespace ObjectGraph.Date

/-! ## Months -/

/-- The years with a leap day are every fourth, but of those that end a century every fourth. -/
theorem isLeapYear_iff {year : Int} :
    isLeapYear year = true ↔ year % 4 = 0 ∧ (year % 100 ≠ 0 ∨ year % 400 = 0) := by
  simp [isLeapYear]

/-- A date is valid if its month is one of the year and its day one of the month. -/
theorem isValid_iff {date : Date} : date.isValid = true ↔
    (1 ≤ date.month ∧ date.month ≤ 12) ∧
      1 ≤ date.day ∧ date.day ≤ daysInMonth date.year date.month := by
  simp [isValid, and_assoc]

/-- The number of a month from March of the year 0. -/
def monthIndex (date : Date) : Int :=
  12 * date.year + date.month - 3

/-- The days before a year from March, counted from that of the year 0. -/
def yearStart (year : Int) : Int :=
  365 * year + year / 4 - year / 100 + year / 400

/-- The days before a month. -/
def daysBefore (index : Int) : Int :=
  yearStart (index / 12) + (153 * (index % 12) + 2) / 5

/-- Only February depends on the year. -/
theorem daysInMonth_february (year : Int) :
    daysInMonth year 2 = if isLeapYear year then 29 else 28 := rfl

/-- The years from March repeat after 400. -/
theorem yearStart_add_era (year era : Int) :
    yearStart (year + 400 * era) = yearStart year + 146097 * era := by
  unfold yearStart
  omega

/-- A year from March ends with the February of the next one. -/
theorem yearStart_succ (year : Int) :
    yearStart year = yearStart (year - 1) + 337 + daysInMonth year 2 := by
  rw [daysInMonth_february]
  unfold yearStart
  by_cases hleap : isLeapYear year = true
  · rw [if_pos hleap]
    have hrule := isLeapYear_iff.mp hleap
    omega
  · rw [if_neg hleap]
    have hrule := isLeapYear_iff.not.mp hleap
    omega

/-- The days before a month are those before its year and the lengths of the months between. -/
theorem daysBefore_of_month {year month : Int} (h : 0 ≤ month ∧ month < 12) :
    daysBefore (12 * year + month) = yearStart year + (153 * month + 2) / 5 := by
  have hindex : (12 * year + month) / 12 = year ∧ (12 * year + month) % 12 = month := by omega
  rw [daysBefore, hindex.1, hindex.2]

/-- A month of January or February belongs to the year that began in March before. -/
theorem toDays_eq {date : Date} (h : date.isValid = true) :
    date.toDays = daysBefore date.monthIndex + date.day - 719469 := by
  obtain ⟨⟨hlow, hhigh⟩, -⟩ := isValid_iff.mp h
  have hindex : date.monthIndex / 12 = (if date.month ≤ 2 then date.year - 1 else date.year) ∧
      date.monthIndex % 12 = ((date.month : Int) + 9) % 12 := by
    unfold monthIndex
    split <;> omega
  unfold toDays daysBefore yearStart
  dsimp only
  rw [hindex.1, hindex.2]
  generalize (if date.month ≤ 2 then date.year - 1 else date.year) = year
  generalize ((date.month : Int) + 9) % 12 = month
  omega

/-- **A month** is as long as the calendar says. -/
theorem daysBefore_succ {date : Date} (h : 1 ≤ date.month ∧ date.month ≤ 12) :
    daysBefore (date.monthIndex + 1) =
      daysBefore date.monthIndex + daysInMonth date.year date.month := by
  obtain ⟨year, month, day⟩ := date
  obtain ⟨hlow, hhigh⟩ := h
  dsimp only at hlow hhigh ⊢
  by_cases hfebruary : month = 2
  · subst hfebruary
    have hindex : monthIndex ⟨year, 2, day⟩ = 12 * (year - 1) + 11 ∧
        monthIndex ⟨year, 2, day⟩ + 1 = 12 * year + 0 := by
      unfold monthIndex
      dsimp only
      omega
    rw [hindex.2, hindex.1, daysBefore_of_month (by decide), daysBefore_of_month (by decide),
      yearStart_succ]
    omega
  · have hindex : (monthIndex ⟨year, month, day⟩ + 1) / 12 = monthIndex ⟨year, month, day⟩ / 12 ∧
        (monthIndex ⟨year, month, day⟩ + 1) % 12 = ((month : Int) + 10) % 12 ∧
        monthIndex ⟨year, month, day⟩ % 12 = ((month : Int) + 9) % 12 := by
      unfold monthIndex
      dsimp only
      omega
    obtain ⟨hyear, hmonth, hmonth'⟩ := hindex
    have hlength : (153 * (((month : Int) + 10) % 12) + 2) / 5 =
        (153 * (((month : Int) + 9) % 12) + 2) / 5 + daysInMonth year month := by
      interval_cases month <;> first | contradiction | rfl
    rw [daysBefore, daysBefore, hyear, hmonth, hmonth', hlength, Int.add_assoc]

/-- A month has some days, and 31 at most. -/
theorem daysInMonth_bounds (year : Int) (month : Nat) :
    0 < daysInMonth year month ∧ daysInMonth year month ≤ 31 := by
  unfold daysInMonth
  split
  · split <;> decide
  all_goals decide

/-- A later month has no fewer days before it. -/
theorem daysBefore_le {index other : Int} (h : index ≤ other) :
    daysBefore index ≤ daysBefore other := by
  refine monotone_int_of_le_succ (fun index => ?_) h
  let first : Date := ⟨(index + 2) / 12, ((index + 2) % 12).toNat + 1, 1⟩
  have hindex : first.monthIndex = index := by
    show 12 * ((index + 2) / 12) + ((((index + 2) % 12).toNat + 1 : Nat) : Int) - 3 = index
    omega
  have hmonth : 1 ≤ first.month ∧ first.month ≤ 12 := by
    show 1 ≤ ((index + 2) % 12).toNat + 1 ∧ ((index + 2) % 12).toNat + 1 ≤ 12
    omega
  have hlength := daysBefore_succ hmonth
  rw [hindex] at hlength
  omega

/-! ## Dates -/

/-- The day after a date. -/
def next (date : Date) : Date :=
  if date.day < daysInMonth date.year date.month then { date with day := date.day + 1 }
  else if date.month < 12 then ⟨date.year, date.month + 1, 1⟩
  else ⟨date.year + 1, 1, 1⟩

/-- There is a day after every date. -/
theorem isValid_next {date : Date} (h : date.isValid = true) : date.next.isValid = true := by
  obtain ⟨⟨hlow, hhigh⟩, hday, -⟩ := isValid_iff.mp h
  rw [isValid_iff]
  unfold next
  split
  next hmore => exact ⟨⟨hlow, hhigh⟩, Nat.le_add_left 1 _, hmore⟩
  next =>
    split
    next hmonth => exact ⟨⟨Nat.le_add_left 1 _, hmonth⟩, Nat.le_refl 1, (daysInMonth_bounds _ _).1⟩
    next => exact ⟨⟨Nat.le_refl 1, Nat.le_add_left 1 11⟩, Nat.le_refl 1, (daysInMonth_bounds _ _).1⟩

/-- **Days are counted** one by one. -/
theorem toDays_next {date : Date} (h : date.isValid = true) :
    date.next.toDays = date.toDays + 1 := by
  obtain ⟨hmonth, -, hday⟩ := isValid_iff.mp h
  have hlength := daysBefore_succ hmonth
  rw [toDays_eq h, toDays_eq (isValid_next h)]
  unfold next
  split
  next =>
    show daysBefore date.monthIndex + ((date.day + 1 : Nat) : Int) - 719469 = _
    omega
  next hlast =>
    have hindex : ∀ first : Date, first.monthIndex = date.monthIndex + 1 → first.day = 1 →
        daysBefore first.monthIndex + (first.day : Int) - 719469 =
          daysBefore date.monthIndex + (date.day : Int) - 719469 + 1 := by
      intro first hindex hfirst
      rw [hindex, hlength, hfirst]
      omega
    split
    next => exact hindex _ (by unfold monthIndex; dsimp only; omega) rfl
    next => exact hindex _ (by unfold monthIndex; dsimp only; omega) rfl

example : toDays ⟨1970, 1, 1⟩ = 0 := by decide

variable {date other : Date}

/-- **Dates** have the order of their days. -/
theorem toDays_lt_iff (h : date.isValid = true) (hother : other.isValid = true) :
    date.toDays < other.toDays ↔ date.year < other.year ∨ date.year = other.year ∧
      (date.month < other.month ∨ date.month = other.month ∧ date.day < other.day) := by
  obtain ⟨hmonth, hday⟩ := isValid_iff.mp h
  obtain ⟨hmonth', hday'⟩ := isValid_iff.mp hother
  have hlength := daysBefore_succ hmonth
  have hlength' := daysBefore_succ hmonth'
  rw [toDays_eq h, toDays_eq hother]
  rcases Int.lt_trichotomy date.monthIndex other.monthIndex with hlt | heq | hgt
  · have hstart := daysBefore_le (show date.monthIndex + 1 ≤ other.monthIndex from hlt)
    have hlex : date.year < other.year ∨ date.year = other.year ∧ date.month < other.month := by
      unfold monthIndex at hlt
      omega
    constructor
    · intro
      exact hlex.imp_right fun hsame => ⟨hsame.1, .inl hsame.2⟩
    · intro
      omega
  · have hsame : date.year = other.year ∧ date.month = other.month := by
      unfold monthIndex at heq
      omega
    rw [heq, hsame.1, hsame.2]
    omega
  · have hstart := daysBefore_le (show other.monthIndex + 1 ≤ date.monthIndex from hgt)
    have hlex : other.year < date.year ∨ other.year = date.year ∧ other.month < date.month := by
      unfold monthIndex at hgt
      omega
    omega

/-- Dates with one number agree part by part. -/
theorem toDays_eq_iff (h : date.isValid = true) (hother : other.isValid = true) :
    date.toDays = other.toDays ↔
      date.year = other.year ∧ date.month = other.month ∧ date.day = other.day := by
  have hlt := toDays_lt_iff h hother
  have hgt := toDays_lt_iff hother h
  constructor
  · intro heq
    have hnot := hlt.not.mp (by omega)
    have hnot' := hgt.not.mp (by omega)
    omega
  · intro hsame
    have hnot := hlt.not.mpr (by omega)
    have hnot' := hgt.not.mpr (by omega)
    omega

/-- Every date has a number of its own. -/
theorem eq_of_toDays_eq (h : date.isValid = true) (hother : other.isValid = true)
    (heq : date.toDays = other.toDays) : date = other := by
  obtain ⟨hyear, hmonth, hday⟩ := (toDays_eq_iff h hother).mp heq
  cases date
  cases other
  congr

/-! ## Dates of days -/

/-- The year from March that a day lies in, within 400 years. -/
theorem yearOfEra_bounds {day : Int} (hlow : 0 ≤ day) (hhigh : day < 146097) :
    let year := (day - day / 1460 + day / 36524 - day / 146096) / 365
    (0 ≤ year ∧ year < 400) ∧ yearStart year ≤ day ∧ day < yearStart (year + 1) := by
  intro year
  -- The formula is linear within each century.
  have hcentury : day / 36524 = 0 ∨ day / 36524 = 1 ∨ day / 36524 = 2 ∨ day / 36524 = 3 ∨
      day / 36524 = 4 := by
    omega
  have hlast : day / 146096 = 0 ∨ day / 146096 = 1 := by omega
  have hyear : 0 ≤ year ∧ year < 400 := by omega
  have hleaps : 4 * (day / 1460) ≤ year + 1 := by omega
  have hleaps' : day / 1460 ≤ (year + 1) / 4 := by omega
  unfold yearStart
  refine ⟨hyear, ?_, ?_⟩
  · have hera : year / 400 = 0 := by omega
    have hpast : year / 100 = 0 ∨ year / 100 = 1 ∨ year / 100 = 2 ∨ year / 100 = 3 := by omega
    omega
  · have hpast : (year + 1) / 100 = 0 ∨ (year + 1) / 100 = 1 ∨ (year + 1) / 100 = 2 ∨
        (year + 1) / 100 = 3 ∨ (year + 1) / 100 = 4 := by
      omega
    omega

/-- The month that a day lies in, within a year from March. -/
theorem monthOfYear_bounds {day : Int} (hlow : 0 ≤ day) (hhigh : day < 366) :
    let month := (5 * day + 2) / 153
    (0 ≤ month ∧ month < 12) ∧ (153 * month + 2) / 5 ≤ day ∧
      day < (153 * (month + 1) + 2) / 5 := by
  omega

/-- January and February belong to the next year. -/
theorem monthIndex_civil {month : Int} (h : 0 ≤ month ∧ month < 12) (year : Int) (day : Nat) :
    let civil := if month < 10 then month + 3 else month - 9
    (1 ≤ civil.toNat ∧ civil.toNat ≤ 12) ∧
      monthIndex ⟨if civil ≤ 2 then year + 1 else year, civil.toNat, day⟩ = 12 * year + month := by
  unfold monthIndex
  dsimp only
  split
  · split <;> omega
  · split <;> omega

/-- A day lies in the month that is found for it. -/
theorem ofDays_spec (days : Int) :
    (1 ≤ (ofDays days).month ∧ (ofDays days).month ≤ 12) ∧
      daysBefore (ofDays days).monthIndex ≤ days + 719468 ∧
      days + 719468 < daysBefore ((ofDays days).monthIndex + 1) ∧
      ((ofDays days).day : Int) = days + 719468 - daysBefore (ofDays days).monthIndex + 1 := by
  obtain ⟨hyear, hlow, hhigh⟩ :=
    @yearOfEra_bounds ((days + 719468) % 146097) (by omega) (by omega)
  unfold ofDays
  dsimp only at hyear hlow hhigh ⊢
  have hdays : days + 719468 =
      146097 * ((days + 719468) / 146097) + (days + 719468) % 146097 := by
    omega
  generalize (days + 719468) / 146097 = era at *
  generalize (days + 719468) % 146097 = dayOfEra at *
  generalize (dayOfEra - dayOfEra / 1460 + dayOfEra / 36524 - dayOfEra / 146096) / 365 = year at *
  have hof : 365 * year + year / 4 - year / 100 = yearStart year := by
    unfold yearStart
    omega
  have hlength := yearStart_succ (year + 1)
  rw [Int.add_sub_cancel] at hlength
  have hfebruary : daysInMonth (year + 1) 2 ≤ 29 := by
    rw [daysInMonth_february]
    split <;> omega
  rw [hof]
  obtain ⟨hmonth, hstart, hnext⟩ := @monthOfYear_bounds (dayOfEra - yearStart year)
    (by omega) (by omega)
  generalize hdayOfYear : dayOfEra - yearStart year = dayOfYear at *
  generalize (5 * dayOfYear + 2) / 153 = month at *
  obtain ⟨hcivil, hindex⟩ := monthIndex_civil hmonth (year + era * 400)
    (dayOfYear - (153 * month + 2) / 5 + 1).toNat
  rw [Int.mul_comm era 400] at hindex ⊢
  rw [hindex, daysBefore_of_month hmonth, yearStart_add_era]
  refine ⟨hcivil, by omega, ?_, by omega⟩
  by_cases hlast : month = 11
  · have hfirst := @daysBefore_of_month (year + 1 + 400 * era) 0 (by decide)
    rw [yearStart_add_era] at hfirst
    rw [show 12 * (year + 400 * era) + month + 1 = 12 * (year + 1 + 400 * era) + 0 by omega, hfirst]
    omega
  · rw [Int.add_assoc, daysBefore_of_month (by omega), yearStart_add_era]
    omega

/-- The date of a day exists. -/
theorem isValid_ofDays (days : Int) : (ofDays days).isValid = true := by
  obtain ⟨hmonth, hlow, hhigh, hday⟩ := ofDays_spec days
  rw [daysBefore_succ hmonth] at hhigh
  exact isValid_iff.mpr ⟨hmonth, by omega, by omega⟩

/-- **The date of a day** has its number. -/
theorem toDays_ofDays (days : Int) : (ofDays days).toDays = days := by
  obtain ⟨-, -, -, hday⟩ := ofDays_spec days
  rw [toDays_eq (isValid_ofDays days)]
  omega

/-- The date with a number is the date of the day. -/
theorem ofDays_toDays (h : date.isValid = true) : ofDays date.toDays = date :=
  eq_of_toDays_eq (isValid_ofDays _) h (toDays_ofDays _)

end ObjectGraph.Date
