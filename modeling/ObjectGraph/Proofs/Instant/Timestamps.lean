import Mathlib.Data.List.TakeWhile
import ObjectGraph.Proofs.Instant.Dates
import ObjectGraph.Proofs.Instant.Padding

/-!
# Timestamps

The grammar of the date-times that are read.  A `Timestamp` has the parts of a date-time of
RFC 3339 with the choices that its spelling leaves: the separator, the digits of the fraction,
the zone.  Each part has a reader of its own, which takes exactly what the part is written
as, and so the reader of date-times takes exactly the texts of timestamps
(`parse?_eq_some_iff`).
-/

namespace ObjectGraph

namespace Instant

/-! ## Dates -/

/-- A date as it is written. -/
def dateChars (date : Date) : List Char :=
  yearText date.year ++ '-' :: (padded 2 date.month ++ '-' :: padded 2 date.day)

/-- Years from 0 to 9999 have four digits. -/
theorem yearText_of_mem {year : Int} (h : 0 ≤ year ∧ year ≤ 9999) :
    yearText year = padded 4 year.toNat := if_pos h

/-- A date is read exactly where a valid one is written in front. -/
theorem readDate?_eq_some_iff {cs rest : List Char} {date : Date} :
    readDate? cs = some (date, rest) ↔
      (0 ≤ date.year ∧ date.year ≤ 9999) ∧ date.isValid = true ∧
        cs = dateChars date ++ rest := by
  unfold readDate?
  simp only [bind, Option.bind_eq_some_iff, Prod.exists, readDigits?_eq_some_iff four_pos,
    readChar?_eq_some_iff, readPair?_eq_some_iff (show 12 < 100 by decide),
    readPair?_eq_some_iff (show 31 < 100 by decide), Option.ite_none_right_eq_some]
  constructor
  · rintro ⟨year, _, ⟨hyear, rfl⟩, _, rfl, month, _, ⟨-, rfl⟩, _, rfl, day, _, ⟨-, rfl⟩, hvalid, ⟨⟩⟩
    have hmem : 0 ≤ (year : Int) ∧ (year : Int) ≤ 9999 := by omega
    refine ⟨hmem, hvalid, ?_⟩
    simp [dateChars, yearText_of_mem hmem]
  · rintro ⟨hmem, hvalid, rfl⟩
    obtain ⟨year, month, day⟩ := date
    obtain ⟨⟨hmonth, hmonth'⟩, hday, hday'⟩ := Date.isValid_iff.mp hvalid
    have hlength := (Date.daysInMonth_bounds year month).2
    dsimp only at hmem hmonth hmonth' hday hday'
    have hyear : ((year.toNat : Nat) : Int) = year := Int.toNat_of_nonneg hmem.1
    refine ⟨year.toNat, _, ⟨by omega, by
      simp [dateChars, yearText_of_mem hmem]⟩, _, rfl, month, _, ⟨⟨hmonth, hmonth'⟩, rfl⟩, _,
      rfl, day, rest, ⟨⟨hday, hday'.trans hlength⟩, rfl⟩, ?_, ?_⟩
    · rwa [hyear]
    · rw [hyear]

/-- A date and a time are separated by a letter of either case or by a blank. -/
theorem readSeparator?_eq_some_iff {cs rest : List Char} :
    readSeparator? cs = some rest ↔ ∃ c, (c = 'T' ∨ c = 't' ∨ c = ' ') ∧ cs = c :: rest := by
  cases cs with
  | nil => simp [readSeparator?]
  | cons d cs =>
      rw [readSeparator?, Option.ite_none_right_eq_some]
      constructor
      · rintro ⟨hd, ⟨⟩⟩
        exact ⟨d, hd, rfl⟩
      · rintro ⟨c, hc, ⟨⟩⟩
        exact ⟨hc, rfl⟩

/-! ## Fractions -/

/-- The fraction of a second as it is written, if it has digits. -/
def fractionChars : List Char → List Char
  | [] => []
  | ds => '.' :: ds

/-- The first three digits of a fraction. -/
def millisOf (ds : List Char) : Nat :=
  natOfDigits ((ds ++ ['0', '0']).take 3)

/-- A fraction that is read has digits, of which the first three count. -/
theorem exists_of_readFraction? {cs rest : List Char} {n : Nat}
    (h : readFraction? cs = some (n, rest)) :
    ∃ ds, (∀ c ∈ ds, c.isDigit = true) ∧ n = millisOf ds ∧ cs = fractionChars ds ++ rest := by
  unfold readFraction? at h
  split at h
  next behind =>
    dsimp only at h
    split at h
    next => cases h
    next hne =>
      obtain ⟨rfl, rfl⟩ := Prod.mk.inj (Option.some.inj h)
      refine ⟨behind.takeWhile Char.isDigit, fun _ => List.mem_takeWhile_imp, rfl, ?_⟩
      obtain ⟨d, ds, hds⟩ := List.exists_cons_of_ne_nil (mt List.isEmpty_iff.mpr hne)
      rw [hds, fractionChars, ← hds, List.cons_append, List.takeWhile_append_dropWhile]
      exact fun h => nomatch h
  next =>
    obtain ⟨rfl, rfl⟩ := Prod.mk.inj (Option.some.inj h)
    exact ⟨[], by simp, rfl, rfl⟩

/-- A fraction is read in front of what is neither a point nor a digit. -/
theorem readFraction?_append {ds rest : List Char} {c : Char} (hds : ∀ c ∈ ds, c.isDigit = true)
    (hpoint : c ≠ '.') (hc : c.isDigit = false) :
    readFraction? (fractionChars ds ++ c :: rest) = some (millisOf ds, c :: rest) := by
  cases ds with
  | nil =>
      show readFraction? (c :: rest) = _
      unfold readFraction?
      split
      next heq => exact absurd (List.cons.inj heq).1 hpoint
      next => rfl
  | cons d ds =>
      have htake : ((d :: ds) ++ c :: rest).takeWhile Char.isDigit = d :: ds := by
        rw [List.takeWhile_append_of_pos hds, List.takeWhile_cons_of_neg (by simp [hc]),
          List.append_nil]
      have hdrop : ((d :: ds) ++ c :: rest).dropWhile Char.isDigit = c :: rest := by
        rw [List.dropWhile_append_of_pos hds, List.dropWhile_cons_of_neg (by simp [hc])]
      show readFraction? ('.' :: ((d :: ds) ++ c :: rest)) = _
      simp only [readFraction?, htake, hdrop]
      rfl

/-! ## Zones -/

/-- A zone: a letter for UTC, or a sign and an offset below a day. -/
inductive Zone where
  | utc (letter : Char) (isUtc : letter = 'Z' ∨ letter = 'z')
  | offset (sign : Char) (hours minutes : Nat)
      (isSign : sign = '+' ∨ sign = '-' ∨ sign = '\u2212') (hours_lt : hours < 24)
      (minutes_lt : minutes < 60)

namespace Zone

/-- A zone as it is written. -/
def chars : Zone → List Char
  | utc letter _ => [letter]
  | offset sign hours minutes _ _ _ => sign :: (padded 2 hours ++ ':' :: padded 2 minutes)

/-- The minutes by which local time is ahead of UTC. -/
def minutes : Zone → Int
  | utc _ _ => 0
  | offset sign hours minutes _ _ _ =>
    if sign = '+' then 60 * hours + minutes else -(60 * hours + minutes)

/-- A zone starts neither with a point nor with a digit. -/
theorem exists_chars_eq_cons (z : Zone) :
    ∃ c rest, z.chars = c :: rest ∧ c ≠ '.' ∧ c.isDigit = false := by
  cases z with
  | utc letter isUtc =>
      refine ⟨letter, [], rfl, ?_⟩
      rcases isUtc with rfl | rfl <;> decide
  | offset sign hours minutes isSign =>
      refine ⟨sign, _, rfl, ?_⟩
      rcases isSign with rfl | rfl | rfl <;> decide

end Zone

/-- The sign of an offset may be a minus or a hyphen. -/
theorem readOffsetSign?_eq_some_iff {cs rest : List Char} {negative : Bool} :
    readOffsetSign? cs = some (negative, rest) ↔
      ∃ c, (c = '+' ∨ c = '-' ∨ c = '\u2212') ∧ cs = c :: rest ∧
        negative = !decide (c = '+') := by
  cases cs with
  | nil => simp [readOffsetSign?]
  | cons d cs =>
      unfold readOffsetSign?
      by_cases hplus : d = '+'
      · subst hplus
        simp [and_comm, eq_comm]
      · by_cases hminus : d = '-' ∨ d = '\u2212'
        · simp [hplus, hminus, and_comm, eq_comm]
        · simp [hplus, hminus]

/-- An offset is read exactly where one is written in front. -/
theorem readSigned?_eq_some_iff {cs rest : List Char} {offset : Int} :
    readSigned? cs = some (offset, rest) ↔
      ∃ sign hours minutes isSign hours_lt minutes_lt,
        cs = (Zone.offset sign hours minutes isSign hours_lt minutes_lt).chars ++ rest ∧
          offset = (Zone.offset sign hours minutes isSign hours_lt minutes_lt).minutes := by
  have hvalue : ∀ (sign : Char) (hours minutes : Nat),
      signedInt (!decide (sign = '+')) (60 * hours + minutes) =
        if sign = '+' then 60 * (hours : Int) + minutes else -(60 * hours + minutes) := by
    intro sign hours minutes
    unfold signedInt
    by_cases hplus : sign = '+' <;> simp [hplus]
  unfold readSigned?
  simp only [bind, Option.bind_eq_some_iff, Prod.exists, readOffsetSign?_eq_some_iff,
    readPair?_eq_some_iff (show 23 < 100 by decide), readChar?_eq_some_iff,
    readPair?_eq_some_iff (show 59 < 100 by decide)]
  constructor
  · rintro ⟨_, _, ⟨sign, isSign, rfl, rfl⟩, hours, _, ⟨hhours, rfl⟩, _, rfl, minutes, _,
      ⟨hminutes, rfl⟩, ⟨⟩⟩
    refine ⟨sign, hours, minutes, isSign, by omega, by omega, ?_, hvalue sign hours minutes⟩
    simp [Zone.chars]
  · rintro ⟨sign, hours, minutes, isSign, hours_lt, minutes_lt, rfl, rfl⟩
    refine ⟨_, _, ⟨sign, isSign, rfl, rfl⟩, hours, ':' :: (padded 2 minutes ++ rest),
      ⟨by omega, by simp⟩, _, rfl, minutes, rest, ⟨by omega, rfl⟩, ?_⟩
    rw [hvalue]
    rfl

/-- A zone is read exactly where one is written in front. -/
theorem readOffset?_eq_some_iff {cs rest : List Char} {offset : Int} :
    readOffset? cs = some (offset, rest) ↔
      ∃ z : Zone, cs = z.chars ++ rest ∧ offset = z.minutes := by
  constructor
  · intro h
    unfold readOffset? at h
    split at h
    next behind =>
      obtain ⟨rfl, rfl⟩ := Prod.mk.inj (Option.some.inj h)
      exact ⟨.utc 'Z' (.inl rfl), rfl, rfl⟩
    next behind =>
      obtain ⟨rfl, rfl⟩ := Prod.mk.inj (Option.some.inj h)
      exact ⟨.utc 'z' (.inr rfl), rfl, rfl⟩
    next =>
      obtain ⟨sign, hours, minutes, isSign, hours_lt, minutes_lt, hcs, hoffset⟩ :=
        readSigned?_eq_some_iff.mp h
      exact ⟨.offset sign hours minutes isSign hours_lt minutes_lt, hcs, hoffset⟩
  · rintro ⟨z, rfl, rfl⟩
    cases z with
    | utc letter isUtc => rcases isUtc with rfl | rfl <;> rfl
    | offset sign hours minutes isSign hours_lt minutes_lt =>
        let zone := Zone.offset sign hours minutes isSign hours_lt minutes_lt
        have hread : readSigned? (zone.chars ++ rest) = some (zone.minutes, rest) :=
          readSigned?_eq_some_iff.mpr
            ⟨sign, hours, minutes, isSign, hours_lt, minutes_lt, rfl, rfl⟩
        rcases isSign with rfl | rfl | rfl <;> exact hread

/-! ## Date-times -/

end Instant

/-- A date-time of RFC 3339: its parts, and what its spelling leaves open. -/
structure Timestamp where
  date : Date
  separator : Char
  hour : Nat
  minute : Nat
  second : Nat
  fraction : List Char
  zone : Instant.Zone
  year_mem : 0 ≤ date.year ∧ date.year ≤ 9999
  isValid : date.isValid = true
  isSeparator : separator = 'T' ∨ separator = 't' ∨ separator = ' '
  hour_lt : hour < 24
  minute_lt : minute < 60
  second_le : second ≤ 60
  isDigit : ∀ c ∈ fraction, c.isDigit = true

namespace Timestamp

open Instant

/-- A timestamp as it is written. -/
def chars (τ : Timestamp) : List Char :=
  dateChars τ.date ++ τ.separator :: (padded 2 τ.hour ++ ':' :: (padded 2 τ.minute ++
    ':' :: (padded 2 τ.second ++ (fractionChars τ.fraction ++ τ.zone.chars))))

/-- The minute of a timestamp in UTC, counted from the start of 1970. -/
def minutes (τ : Timestamp) : Int :=
  (τ.date.toDays * 24 + τ.hour) * 60 + τ.minute - τ.zone.minutes

/-- The instant that is read from a timestamp. -/
def instant (τ : Timestamp) : Instant where
  millis := (τ.minutes * 60 + if τ.second = 60 then 59 else τ.second) * 1000 + millisOf τ.fraction
  leap := τ.second == 60

end Timestamp

/-- **The reader** takes the texts of timestamps. -/
theorem Instant.parse?_eq_some_iff {s : String} {t : Instant} :
    Instant.parse? s = some t ↔ ∃ τ : Timestamp, τ.chars = s.toList ∧ τ.instant = t := by
  unfold Instant.parse?
  simp only [bind, Option.bind_eq_some_iff, Prod.exists, readDate?_eq_some_iff,
    readSeparator?_eq_some_iff, readPair?_eq_some_iff (show 23 < 100 by decide),
    readPair?_eq_some_iff (show 59 < 100 by decide),
    readPair?_eq_some_iff (show 60 < 100 by decide), readChar?_eq_some_iff,
    readOffset?_eq_some_iff, Option.ite_none_right_eq_some]
  constructor
  · rintro ⟨date, _, ⟨hyear, hvalid, hs⟩, _, ⟨separator, hseparator, rfl⟩, hour, _,
      ⟨hhour, rfl⟩, _, rfl, minute, _, ⟨hminute, rfl⟩, _, rfl, second, _, ⟨hsecond, rfl⟩,
      fraction, _, hfraction, offset, rest, ⟨zone, rfl, rfl⟩, hend, ⟨⟩⟩
    obtain ⟨ds, hds, rfl, rfl⟩ := exists_of_readFraction? hfraction
    obtain rfl := List.isEmpty_iff.mp hend
    refine ⟨⟨date, separator, hour, minute, second, ds, zone, hyear, hvalid, hseparator,
      by omega, by omega, hsecond.2, hds⟩, ?_, ?_⟩
    · rw [hs]
      simp [Timestamp.chars]
    · simp [Timestamp.instant, Timestamp.minutes]
  · rintro ⟨τ, hchars, rfl⟩
    obtain ⟨c, rest, hzone, hpoint, hdigit⟩ := τ.zone.exists_chars_eq_cons
    have hhour := τ.hour_lt
    have hminute := τ.minute_lt
    refine ⟨τ.date, _, ⟨τ.year_mem, τ.isValid, hchars.symm⟩, _, ⟨τ.separator, τ.isSeparator, rfl⟩,
      τ.hour, _, ⟨by omega, rfl⟩, _, rfl, τ.minute, _, ⟨by omega, rfl⟩, _, rfl, τ.second, _,
      ⟨⟨Nat.zero_le _, τ.second_le⟩, rfl⟩, millisOf τ.fraction, τ.zone.chars, ?_,
      τ.zone.minutes, [], ⟨τ.zone, (List.append_nil _).symm, rfl⟩, rfl, ?_⟩
    · rw [hzone]
      exact readFraction?_append τ.isDigit hpoint hdigit
    · simp [Timestamp.instant, Timestamp.minutes]

end ObjectGraph
