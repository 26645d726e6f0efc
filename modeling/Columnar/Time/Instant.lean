import Columnar.Time
import Columnar.Time.Calendar

/-!
# Instants as text

A point in time of a unit of fixed length is written as a civil date, followed for units
below a day by the time of day, with as many decimals of a second as the unit has.  Years
from 0 to 9999 take four digits, others a sign and at least four; instants outside the
years -262143 to 262142 have no text.

## Main definitions

* `Instant` — whole seconds from the start of 1970, and nanoseconds.
* `Instant.ofCount?` — the instant of a count of a unit.
* `Instant.text` — its text at the resolution of a unit.
* `datetimeText?` — the text of a count, if its instant has one.
-/

namespace Columnar

/-- A point in time: seconds from the start of 1970, and nanoseconds of the next second. -/
structure Instant where
  /-- Whole seconds, rounded down. -/
  seconds : Int
  /-- Nanoseconds, less than a thousand million. -/
  nanos : Nat
  deriving DecidableEq, Repr

/-- A number with zeros in front up to a width. -/
def paddedNat (width n : Nat) : List Char :=
  let ds := Nat.toDigits 10 n
  List.replicate (width - ds.length) '0' ++ ds

namespace Instant

/-- The instant of a count of a unit of fixed length. -/
def ofCount? (count : Int64) (unit : TimeUnit) : Option Instant :=
  unit.nanoseconds?.map fun n =>
    let total := count.toInt * n
    ⟨total / 1000000000, (total % 1000000000).toNat⟩

/-- The day of an instant, from 1970-01-01. -/
def days (t : Instant) : Int := t.seconds / 86400

/-- The second of the day. -/
def secondOfDay (t : Instant) : Nat := (t.seconds % 86400).toNat

/-- The first day that has a text, -262143-01-01. -/
def firstDay : Int := (CivilDate.mk (-262143) 1 1).toDays

/-- The last day that has a text, +262142-12-31. -/
def lastDay : Int := (CivilDate.mk 262142 12 31).toDays

/-- A year as text. -/
def yearText (y : Int) : List Char :=
  if 0 ≤ y ∧ y ≤ 9999 then paddedNat 4 y.toNat
  else (if y < 0 then '-' else '+') :: paddedNat 4 y.natAbs

/-- A date as text. -/
def dateText (d : CivilDate) : List Char :=
  yearText d.year ++ '-' :: paddedNat 2 d.month ++ '-' :: paddedNat 2 d.day

/-- The time of day as text, up to whole seconds. -/
def clockText (t : Instant) : List Char :=
  let s := t.secondOfDay
  paddedNat 2 (s / 3600) ++ ':' :: paddedNat 2 (s / 60 % 60) ++ ':' :: paddedNat 2 (s % 60)

/-- The decimals of a second at the resolution of a unit, behind a point. -/
def fractionOfSecond (t : Instant) : TimeUnit → List Char
  | .millisecond => '.' :: paddedNat 3 (t.nanos / 1000000)
  | .microsecond => '.' :: paddedNat 6 (t.nanos / 1000)
  | .nanosecond => '.' :: paddedNat 9 t.nanos
  | _ => []

/-- Whether a unit is written as a date without a time of day. -/
def isDateUnit : TimeUnit → Bool
  | .week | .day => true
  | _ => false

/-- The text of an instant at the resolution of a unit. -/
def text (t : Instant) (unit : TimeUnit) : String :=
  let date := dateText (.ofDays t.days)
  String.ofList <|
    if isDateUnit unit then date else date ++ 'T' :: t.clockText ++ t.fractionOfSecond unit

end Instant

/-- The text of a count of a unit from the start of 1970. -/
def datetimeText? (count : Int64) (unit : TimeUnit) : Option String :=
  match Instant.ofCount? count unit with
  | none => none
  | some t =>
    if Instant.firstDay ≤ t.days ∧ t.days ≤ Instant.lastDay then some (t.text unit) else none

end Columnar
