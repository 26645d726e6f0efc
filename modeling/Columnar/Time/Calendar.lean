/-!
# The civil calendar

Dates of the proleptic Gregorian calendar and their number of days from the first of
January 1970.  Years start in March here, so that the day that comes and goes is the last
one: a year then begins `365 y + y / 4 - y / 100 + y / 400` days after March of year zero,
and months of 30 and 31 days follow each other by one linear rule.

## Main definitions

* `CivilDate` — year, month and day.
* `CivilDate.toDays` — the days from 1970-01-01 to a date.
* `CivilDate.ofDays` — the date that many days later.
-/

namespace Columnar

/-- A date of the proleptic Gregorian calendar; year zero is the one before year one. -/
structure CivilDate where
  /-- The year. -/
  year : Int
  /-- The month, from 1 to 12. -/
  month : Nat
  /-- The day of the month, from 1. -/
  day : Nat
  deriving DecidableEq, Repr, Inhabited

namespace CivilDate

/-- The days of four hundred years. -/
def eraDays : Nat := 146097

/-- The days from the first of March of year zero to the start of 1970. -/
def epochShift : Int := 719468

/-- The days before a month, with March as month zero. -/
def daysBeforeMonth (m : Nat) : Nat := (153 * m + 2) / 5

/-- The days before a year of an era, both starting in March. -/
def daysBeforeYear (y : Nat) : Nat := 365 * y + y / 4 - y / 100

/-- The days from 1970-01-01 to a date. -/
def toDays (d : CivilDate) : Int :=
  let marchYear : Int := if d.month ≤ 2 then d.year - 1 else d.year
  let marchMonth := if d.month ≤ 2 then d.month + 9 else d.month - 3
  let era := marchYear / 400
  let yearOfEra := (marchYear % 400).toNat
  era * eraDays + (daysBeforeYear yearOfEra + daysBeforeMonth marchMonth + (d.day - 1) : Nat)
    - epochShift

/-- The year of an era that holds a day of it: the days that only leap years have are taken
out, and what remains is years of 365 days. -/
def yearOfEraDay (n : Nat) : Nat :=
  (n + n / 36524 - n / 1460 - n / 146096) / 365

/-- The date a number of days after 1970-01-01. -/
def ofDays (days : Int) : CivilDate :=
  let shifted := days + epochShift
  let era := shifted / eraDays
  let dayOfEra := (shifted % eraDays).toNat
  let yearOfEra := yearOfEraDay dayOfEra
  let dayOfYear := dayOfEra - daysBeforeYear yearOfEra
  let marchMonth := (5 * dayOfYear + 2) / 153
  let month := if marchMonth < 10 then marchMonth + 3 else marchMonth - 9
  let marchYear : Int := era * 400 + yearOfEra
  { year := if month ≤ 2 then marchYear + 1 else marchYear
    month
    day := dayOfYear - daysBeforeMonth marchMonth + 1 }

end CivilDate

end Columnar
