/-
Texts of instants read back.  A date is a place in a cycle of four hundred
years, and counting the days up to it gives back the day it was made from.  An
instant of the years 1970 to 9999 is written with fields of fixed width, which
the exact reader takes one after another.  Later years are written with a sign,
which it refuses.
-/
import ObjectVault.Instant.Rfc3339
import Mathlib.Algebra.Group.Nat.Defs
import Mathlib.Data.List.Basic

namespace ObjectVault

namespace Date

/-- The date of a day counted from the first of March of a year. -/
def ofMarchYear (year : Int) (dayOfYear : Nat) : Date :=
  let monthFromMarch := (5 * dayOfYear + 2) / 153
  let day := dayOfYear - (153 * monthFromMarch + 2) / 5 + 1
  if monthFromMarch < 10 then ⟨year, monthFromMarch + 3, day⟩
  else ⟨year + 1, monthFromMarch - 9, day⟩

/-- Where a day lies in its cycle of four hundred years. -/
structure Place (days : Int) where
  cycle : Int
  century : Nat
  span : Nat
  rest : Nat
  dayOfYear : Nat
  century_le : century ≤ 3
  span_le : span ≤ 24
  rest_le : rest ≤ 3
  day_le : dayOfYear ≤ 365
  /-- Only the last year of a span has a leap day, and of the last span of a
  century only if the century is the last. -/
  leap : dayOfYear = 365 → rest = 3 ∧ (span = 24 → century = 3)
  days_eq : days + marchEra =
    cycle * 146097 + (36524 * century + 1461 * span + 365 * rest + dayOfYear : Nat)

/-- The year of a place, counted from March. -/
def Place.year {days : Int} (place : Place days) : Int :=
  place.cycle * 400 + (100 * place.century + 4 * place.span + place.rest : Nat)

theorem exists_place (days : Int) :
    ∃ place : Place days, ofDays days = ofMarchYear place.year place.dayOfYear := by
  simp only [ofDays]
  generalize hcycle : (days + marchEra) / cycleDays = cycle
  generalize hday : ((days + marchEra) % cycleDays).toNat = day
  generalize hcentury : min (day / 36524) 3 = century
  generalize hspan : (day - 36524 * century) / 1461 = span
  generalize hrest : min ((day - 36524 * century - 1461 * span) / 365) 3 = rest
  simp only [cycleDays] at hcycle hday
  refine ⟨{ cycle, century, span, rest
            dayOfYear := day - 36524 * century - 1461 * span - 365 * rest
            century_le := ?_, span_le := ?_, rest_le := ?_, day_le := ?_, leap := ?_
            days_eq := ?_ }, rfl⟩ <;> omega

variable {days : Int}

/-- The month, counted from March, and the day in it add up to the day of the
year. -/
theorem toDays_ofMarchYear (year : Int) {dayOfYear : Nat} (h : dayOfYear ≤ 365) :
    (ofMarchYear year dayOfYear).toDays =
      year / 400 * 146097 + (365 * (year % 400).toNat + (year % 400).toNat / 4 -
        (year % 400).toNat / 100 + dayOfYear : Nat) - marchEra := by
  rw [ofMarchYear]
  generalize hmonth : (5 * dayOfYear + 2) / 153 = month
  split
  · have hmarch : ¬ month + 3 < 3 := by omega
    have hfield : (month + 3 + 9) % 12 = month := by omega
    simp only [toDays, cycleDays, hmarch, ↓reduceIte, hfield]
    omega
  · have hmarch : month - 9 < 3 := by omega
    have hfield : (month - 9 + 9) % 12 = month := by omega
    simp only [toDays, cycleDays, hmarch, ↓reduceIte, hfield, Int.add_sub_cancel]
    omega

/-- Counting the days up to a date gives back the day it is of. -/
theorem toDays_ofDays (days : Int) : (ofDays days).toDays = days := by
  obtain ⟨place, hdate⟩ := exists_place days
  have hcentury := place.century_le
  have hspan := place.span_le
  have hrest := place.rest_le
  have hdays := place.days_eq
  rw [hdate, toDays_ofMarchYear _ place.day_le, Place.year]
  omega

theorem isLeap_of_place (place : Place days) (h : place.dayOfYear = 365) :
    isLeap (place.year + 1) := by
  obtain ⟨hrest, hlast⟩ := place.leap h
  have hcentury := place.century_le
  have hspan := place.span_le
  simp only [isLeap, Place.year, Bool.and_eq_true, Bool.or_eq_true, decide_eq_true_eq, hrest]
  omega

theorem isValid_ofMarchYear {year : Int} {dayOfYear : Nat} (h : dayOfYear ≤ 365)
    (hleap : dayOfYear = 365 → isLeap (year + 1)) : (ofMarchYear year dayOfYear).isValid := by
  rw [ofMarchYear]
  generalize hmonth : (5 * dayOfYear + 2) / 153 = month
  split
  · simp only [isValid, daysInMonth, Bool.and_eq_true, decide_eq_true_eq]
    refine ⟨⟨⟨by omega, by omega⟩, by omega⟩, ?_⟩
    rw [if_neg (by omega)]
    split <;> omega
  · simp only [isValid, daysInMonth, Bool.and_eq_true, decide_eq_true_eq]
    refine ⟨⟨⟨by omega, by omega⟩, by omega⟩, ?_⟩
    rcases Nat.eq_or_lt_of_le h with hlast | hlt
    · rw [if_pos (by omega), if_pos (hleap hlast)]
      omega
    · split
      · split <;> omega
      · rw [if_neg (by omega)]
        omega

theorem isValid_ofDays (days : Int) : (ofDays days).isValid := by
  obtain ⟨place, hdate⟩ := exists_place days
  rw [hdate]
  exact isValid_ofMarchYear place.day_le (isLeap_of_place place)

/-- Days from 1970 to the end of 9999 have years of four digits. -/
theorem year_ofDays (days : Int) (hlow : 0 ≤ days) (hhigh : days ≤ 2932896) :
    0 ≤ (ofDays days).year ∧ (ofDays days).year ≤ 9999 := by
  obtain ⟨place, hdate⟩ := exists_place days
  have hcentury := place.century_le
  have hspan := place.span_le
  have hrest := place.rest_le
  have hday := place.day_le
  have hdays := place.days_eq
  rw [hdate, ofMarchYear]
  simp only [marchEra] at hdays
  split <;> simp only [Place.year] <;> omega

/-- Days after 9999 have years of five digits or more. -/
theorem year_ofDays_of_late (days : Int) (hlate : 2932897 ≤ days) : 9999 < (ofDays days).year := by
  obtain ⟨place, hdate⟩ := exists_place days
  have hcentury := place.century_le
  have hspan := place.span_le
  have hrest := place.rest_le
  have hday := place.day_le
  have hdays := place.days_eq
  rw [hdate, ofMarchYear]
  simp only [marchEra] at hdays
  split <;> simp only [Place.year] <;> omega

theorem daysInMonth_le (year : Int) (month : Nat) : daysInMonth year month ≤ 31 := by
  unfold daysInMonth
  split_ifs <;> decide

theorem fields_le_of_isValid {date : Date} (h : date.isValid) :
    date.month ≤ 12 ∧ date.day ≤ 31 := by
  simp only [isValid, Bool.and_eq_true, decide_eq_true_eq] at h
  exact ⟨h.1.1.2, Nat.le_trans h.2 (daysInMonth_le date.year date.month)⟩

end Date

namespace Scan

theorem digit?_of_isDigit {c : Char} (h : c.isDigit) : digit? c = some (c.toNat - '0'.toNat) := by
  rw [digit?, if_pos]
  simpa [Char.isDigit, Char.le_def] using h

/-- The values of digits. -/
def values (cs : List Char) : List Nat := cs.map fun c => c.toNat - '0'.toNat

@[simp]
theorem length_values (cs : List Char) : (values cs).length = cs.length := List.length_map _

theorem ofDigits_values (cs : List Char) : ofDigits (values cs) = Nat.ofDigitChars 10 cs 0 := by
  rw [ofDigits, values, Nat.ofDigitChars_eq_foldl, List.foldl_map]

/-- A scan takes the digits there are, up to its limit. -/
theorem digits_append {most : Nat} {cs rest : List Char} (hdigits : ∀ c ∈ cs, c.isDigit)
    (hstop : cs.length = most ∨
      cs.length < most ∧ ∀ c, rest.head? = some c → digit? c = none) :
    digits most (cs ++ rest) = (values cs, rest) := by
  induction cs generalizing most with
  | nil =>
      rcases hstop with hfull | ⟨hless, hend⟩
      · rw [← hfull]
        rfl
      · obtain ⟨most, rfl⟩ := Nat.exists_eq_succ_of_ne_zero (Nat.ne_of_gt hless)
        cases rest with
        | nil => rfl
        | cons c rest => simp [digits, hend c rfl, values]
  | cons c cs ih =>
      obtain ⟨hdigit, hdigits⟩ := List.forall_mem_cons.mp hdigits
      simp only [List.length_cons] at hstop
      obtain ⟨most, rfl⟩ := Nat.exists_eq_succ_of_ne_zero (n := most) (by omega)
      simp only [Nat.succ_eq_add_one, Nat.add_right_cancel_iff, Nat.add_lt_add_iff_right] at hstop
      rw [List.cons_append, digits, digit?_of_isDigit hdigit]
      simp only [ih hdigits hstop, values, List.map_cons]

end Scan

namespace Rfc3339

variable {width n : Nat}

theorem isDigit_of_mem_padded {c : Char} (h : c ∈ padded width n) : c.isDigit := by
  rcases List.mem_append.mp h with hzero | hdigit
  · rw [(List.mem_replicate.mp hzero).2]
    rfl
  · exact Nat.isDigit_of_mem_toDigits (by decide) (by decide) hdigit

theorem length_padded (hpos : 0 < width) (h : n < 10 ^ width) :
    (padded width n).length = width := by
  have hdigits := (Nat.length_toDigits_le_iff (b := 10) (by decide) hpos).mpr h
  simp only [padded, List.length_append, List.length_replicate]
  omega

theorem ofDigitChars_padded (width n : Nat) : Nat.ofDigitChars 10 (padded width n) 0 = n := by
  rw [padded, Nat.ofDigitChars_append, Nat.ofDigitChars_replicate_zero, Nat.mul_zero,
    Nat.ofDigitChars_ten_toDigits]

/-- A field of fixed width is read back, and what follows is left. -/
theorem number_padded (hpos : 0 < width) (h : n < 10 ^ width) (rest : List Char) :
    Scan.number width width (padded width n ++ rest) = some (n, rest) := by
  have hlength := length_padded hpos h
  rw [Scan.number, Scan.digits_append (fun _ => isDigit_of_mem_padded) (Or.inl hlength)]
  simp [hlength, Scan.ofDigits_values, ofDigitChars_padded]

/-- A fraction with some of its nine digits is read back in nanoseconds. -/
theorem fraction_padded (hpos : 0 < width) (hwidth : width ≤ 9) (h : n < 10 ^ width)
    {rest : List Char} (hrest : ∀ c, rest.head? = some c → Scan.digit? c = none) :
    fraction ('.' :: padded width n ++ rest) = some (n * 10 ^ (9 - width), rest) := by
  have hlength := length_padded hpos h
  have hscan : Scan.digits 9 (padded width n ++ rest) =
      (Scan.values (padded width n), rest) := by
    refine Scan.digits_append (fun _ => isDigit_of_mem_padded) ?_
    rcases Nat.eq_or_lt_of_le hwidth with hfull | hless
    · exact Or.inl (hlength.trans hfull)
    · exact Or.inr ⟨by rwa [hlength], hrest⟩
  have hdone : (rest.dropWhile fun c => (Scan.digit? c).isSome) = rest := by
    cases rest with
    | nil => rfl
    | cons c rest => simp [hrest c rfl]
  have hsome : Scan.values (padded width n) ≠ [] :=
    List.ne_nil_of_length_pos (by rwa [Scan.length_values, hlength])
  rw [List.cons_append, fraction, hscan]
  simp [hsome, hlength, Scan.ofDigits_values, ofDigitChars_padded, hdone]

/-- The shortest fraction that loses nothing is read back. -/
theorem fraction_fractionText {nanos : Nat} (h : nanos < 1000000000) {rest : List Char}
    (hpoint : rest.head? ≠ some '.') (hrest : ∀ c, rest.head? = some c → Scan.digit? c = none) :
    fraction (fractionText nanos ++ rest) = some (nanos, rest) := by
  unfold fractionText
  split_ifs with hzero hmilli hmicro
  · rw [hzero, List.nil_append]
    cases rest with
    | nil => rfl
    | cons c rest =>
        rw [fraction.eq_def]
        split
        · rename_i heq
          cases heq
          exact absurd rfl hpoint
        · rfl
  · rw [fraction_padded (by decide) (by decide) (by omega) hrest]
    congr 2
    omega
  · rw [fraction_padded (by decide) (by decide) (by omega) hrest]
    congr 2
    omega
  · rw [fraction_padded (by decide) (by decide) (by omega) hrest]
    congr 2
    omega

/-- The fields that the text of an instant names, outside leap seconds. -/
def fieldsOf (moment : Instant) : Fields :=
  let ofDay := (moment.second % Instant.secondsPerDay).toNat
  { date := Date.ofDays (moment.second / Instant.secondsPerDay)
    hour := ofDay / 3600, minute := ofDay / 60 % 60, second := ofDay % 60
    nanos := moment.nanos, offset := 0 }

variable {moment : Instant}

/-- Its zone is no part of a fraction. -/
theorem zone_head {c : Char} (h : ['+', '0', '0', ':', '0', '0'].head? = some c) :
    Scan.digit? c = none := by
  cases h
  decide

theorem exactFields_chars (hlow : 0 ≤ moment.second) (hhigh : moment.second < 253402300800)
    (hnanos : moment.nanos < 1000000000) :
    exactFields (chars ['+', '0', '0', ':', '0', '0'] moment) = some (fieldsOf moment, []) := by
  obtain ⟨hyear, hyears⟩ := Date.year_ofDays (moment.second / Instant.secondsPerDay)
    (by simp only [Instant.secondsPerDay]; omega) (by simp only [Instant.secondsPerDay]; omega)
  obtain ⟨hmonth, hday⟩ := Date.fields_le_of_isValid
    (Date.isValid_ofDays (moment.second / Instant.secondsPerDay))
  have hofDay : (moment.second % Instant.secondsPerDay).toNat < 86400 := by
    simp only [Instant.secondsPerDay]
    omega
  have hleap : ¬ moment.nanos ≥ 1000000000 := by omega
  rw [fieldsOf, chars]
  generalize Date.ofDays (moment.second / Instant.secondsPerDay) = date at *
  generalize (moment.second % Instant.secondsPerDay).toNat = ofDay at *
  have htwo {n : Nat} (h : n < 100) (rest : List Char) :
      Scan.number 2 2 (padded 2 n ++ rest) = some (n, rest) := number_padded (by decide) h rest
  have hmark (c : Char) (rest : List Char) : Scan.char c (c :: rest) = some rest := if_pos rfl
  have hdateEnd (rest : List Char) : dateEnd ('T' :: rest) = some rest := by
    rw [dateEnd, if_pos (Or.inl rfl)]
  simp only [hleap, ↓reduceIte, yearText, hyear, hyears, and_self, exactFields,
    List.append_assoc, List.cons_append, Option.bind_eq_bind]
  -- one field after another, each with the mark in front of it
  rw [number_padded (by decide) (by omega), Option.bind_some, hmark, Option.bind_some,
    htwo (by omega), Option.bind_some, hmark, Option.bind_some, htwo (by omega),
    Option.bind_some, hdateEnd, Option.bind_some, htwo (by omega), Option.bind_some, hmark,
    Option.bind_some, htwo (by omega), Option.bind_some, hmark, Option.bind_some,
    htwo (by omega), Option.bind_some,
    fraction_fractionText hnanos (by decide) fun _ => zone_head, Option.bind_some,
    Int.toNat_of_nonneg hyear]
  rfl

/-- The fields name the instant again. -/
theorem instant?_fieldsOf (hlow : 0 ≤ moment.second) (hhigh : moment.second < 253402300800) :
    (fieldsOf moment).instant? = some moment := by
  obtain ⟨hyear, hyears⟩ := Date.year_ofDays (moment.second / Instant.secondsPerDay)
    (by simp only [Instant.secondsPerDay]; omega) (by simp only [Instant.secondsPerDay]; omega)
  have hvalid := Date.isValid_ofDays (moment.second / Instant.secondsPerDay)
  have hofDay : (moment.second % Instant.secondsPerDay).toNat < 86400 := by
    simp only [Instant.secondsPerDay]
    omega
  have hleap : ¬ (moment.second % Instant.secondsPerDay).toNat % 60 = 60 := by omega
  have hsecond : moment.second / Instant.secondsPerDay * Instant.secondsPerDay +
      (3600 * ((moment.second % Instant.secondsPerDay).toNat / 3600) +
        60 * ((moment.second % Instant.secondsPerDay).toNat / 60 % 60) +
        (moment.second % Instant.secondsPerDay).toNat % 60 : Nat) - 0 = moment.second := by
    simp only [Instant.secondsPerDay]
    omega
  have hdated : moment.hasDate := by
    simp only [Instant.hasDate, Bool.and_eq_true, decide_eq_true_eq]
    simp only [Instant.firstSecond, Instant.lastSecond]
    omega
  simp only [fieldsOf, Fields.instant?, hvalid, Date.toDays_ofDays, hleap, ↓reduceIte, hsecond,
    hdated]
  exact if_pos ⟨trivial, by omega, by omega, by omega, by omega, by omega, by decide⟩

/-- The text of an instant of the years 1970 to 9999 names that instant. -/
theorem readExact?_offsetText (hlow : 0 ≤ moment.second) (hhigh : moment.second < 253402300800)
    (hnanos : moment.nanos < 1000000000) : readExact? (offsetText moment) = some moment := by
  rw [readExact?, offsetText, String.toList_ofList, exactFields_chars hlow hhigh hnanos]
  exact instant?_fieldsOf hlow hhigh

/-- A signed year is not canonical. -/
theorem exactFields_signed (cs : List Char) : exactFields ('+' :: cs) = none := rfl

/-- From the year 10000 on the text of an instant names none, as its year has a
sign. -/
theorem readExact?_offsetText_of_late (hlate : 253402300800 ≤ moment.second) :
    readExact? (offsetText moment) = none := by
  have hyear := Date.year_ofDays_of_late (moment.second / Instant.secondsPerDay)
    (by simp only [Instant.secondsPerDay]; omega)
  rw [readExact?, offsetText, String.toList_ofList, chars]
  generalize Date.ofDays (moment.second / Instant.secondsPerDay) = date at *
  have hsign : yearText date.year = '+' :: padded 4 date.year.natAbs := by
    rw [yearText, if_neg (by omega), if_neg (by omega)]
  simp only [hsign, List.cons_append, exactFields_signed, Option.bind_eq_bind, Option.bind_none]

end Rfc3339

end ObjectVault
