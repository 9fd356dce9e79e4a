/-
Instants and calendar dates.  An instant counts whole seconds from the start
of 1970 in UTC, with a nanosecond part; inside a leap second that part runs
past one billion.  Dates belong to the Gregorian calendar continued in both
directions, with a year zero.
-/
namespace ObjectVault

/-- A point of time in UTC. -/
structure Instant where
  second : Int
  /-- Below one billion, except inside a leap second, where it is below two. -/
  nanos : Nat := 0
deriving DecidableEq, Repr, Inhabited

namespace Instant

def secondsPerDay : Int := 86400

/-- Whole microseconds from the start of 1970; what is smaller is cut off. -/
def micros (moment : Instant) : Int :=
  moment.second * 1000000 + (moment.nanos / 1000 : Nat)

/-- The instant a count of microseconds stands for. -/
def ofMicros (count : Int) : Instant :=
  ⟨count / 1000000, ((count % 1000000) * 1000).toNat⟩

/-- The last second that has a date, the end of the year 262142. -/
def lastSecond : Int := 8210266876799

/-- The first second that has a date, the start of the year -262143. -/
def firstSecond : Int := -8334601228800

/-- Whether the instant lies within the years that dates reach. -/
def hasDate (moment : Instant) : Bool :=
  firstSecond ≤ moment.second && moment.second ≤ lastSecond

end Instant

/-- A calendar date. -/
structure Date where
  year : Int
  month : Nat
  day : Nat
deriving DecidableEq, Repr, Inhabited

namespace Date

/-- Days from the first of March of the year zero to the start of 1970. -/
def marchEra : Int := 719468

/-- Days in a cycle of four hundred years. -/
def cycleDays : Int := 146097

def isLeap (year : Int) : Bool :=
  year % 4 = 0 && (year % 100 ≠ 0 || year % 400 = 0)

def daysInMonth (year : Int) (month : Nat) : Nat :=
  if month = 2 then (if isLeap year then 29 else 28)
  else if month = 4 ∨ month = 6 ∨ month = 9 ∨ month = 11 then 30
  else 31

/-- Whether the day exists in its month. -/
def isValid (date : Date) : Bool :=
  1 ≤ date.month && date.month ≤ 12 && 1 ≤ date.day &&
    date.day ≤ daysInMonth date.year date.month

/-- The date of the day that begins `days` days after the first of 1970.

Years are counted from March, so that the leap day is the last of its year.
A cycle splits into centuries, those into spans of four years, and those into
years; the last part of each may be one day longer than the others. -/
def ofDays (days : Int) : Date :=
  let shifted := days + marchEra
  let cycle := shifted / cycleDays
  let dayOfCycle := (shifted % cycleDays).toNat
  let century := min (dayOfCycle / 36524) 3
  let dayOfCentury := dayOfCycle - 36524 * century
  let span := dayOfCentury / 1461
  let dayOfSpan := dayOfCentury - 1461 * span
  let yearOfSpan := min (dayOfSpan / 365) 3
  let dayOfYear := dayOfSpan - 365 * yearOfSpan
  let monthFromMarch := (5 * dayOfYear + 2) / 153
  let day := dayOfYear - (153 * monthFromMarch + 2) / 5 + 1
  let year := cycle * 400 + (100 * century + 4 * span + yearOfSpan : Nat)
  if monthFromMarch < 10 then ⟨year, monthFromMarch + 3, day⟩
  else ⟨year + 1, monthFromMarch - 9, day⟩

/-- Days from the first of 1970 to the date. -/
def toDays (date : Date) : Int :=
  let marchYear := if date.month < 3 then date.year - 1 else date.year
  let monthFromMarch := (date.month + 9) % 12
  let yearOfCycle := (marchYear % 400).toNat
  let dayOfYear := (153 * monthFromMarch + 2) / 5 + date.day - 1
  let dayOfCycle := 365 * yearOfCycle + yearOfCycle / 4 - yearOfCycle / 100 + dayOfYear
  marchYear / 400 * cycleDays + dayOfCycle - marchEra

end Date

end ObjectVault
