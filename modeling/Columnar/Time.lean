/-!
# Units of time

A column of times holds counts of one unit, either points counted from the start of 1970
or durations.  Columns of different units or different kinds never mix.

## Main definitions

* `TimeKind`, `TimeUnit` — what is counted, and in what.
* `TimeUnit.code`, `TimeUnit.ofCode?` — the short code of a unit, and the unit of a code.
* `TimeUnit.nanoseconds?` — the length of a unit, if it has a fixed one.
-/

namespace Columnar

/-- Whether counts are points in time or durations. -/
inductive TimeKind
  /-- Points in time, counted from the start of 1970. -/
  | datetime
  /-- Durations. -/
  | timedelta
  deriving DecidableEq, Repr, Inhabited

/-- The resolution of a count. -/
inductive TimeUnit
  /-- Calendar years. -/
  | year
  /-- Calendar months. -/
  | month
  /-- Weeks of seven days. -/
  | week
  /-- Days of 24 hours. -/
  | day
  /-- Hours. -/
  | hour
  /-- Minutes. -/
  | minute
  /-- Seconds. -/
  | second
  /-- Thousandths of a second. -/
  | millisecond
  /-- Millionths of a second. -/
  | microsecond
  /-- Thousand millionths of a second. -/
  | nanosecond
  deriving DecidableEq, Repr, Inhabited

/-- The word for a kind of time: the name of the call that pushes one. -/
def TimeKind.word : TimeKind → String
  | .datetime => "datetime"
  | .timedelta => "timedelta"

/-- The name of the element type of a kind of time, before its unit. -/
def TimeKind.elementName : TimeKind → String
  | .datetime => "datetime64"
  | .timedelta => "timedelta64"

namespace TimeUnit

/-- The short code of a unit; months and minutes differ in case. -/
def code : TimeUnit → String
  | year => "Y"
  | month => "M"
  | week => "W"
  | day => "D"
  | hour => "h"
  | minute => "m"
  | second => "s"
  | millisecond => "ms"
  | microsecond => "us"
  | nanosecond => "ns"

/-- Every unit, from the longest down. -/
def all : List TimeUnit :=
  [year, month, week, day, hour, minute, second, millisecond, microsecond, nanosecond]

/-- The unit with the given code. -/
def ofCode? (s : String) : Option TimeUnit := all.find? fun u => u.code == s

@[simp] theorem ofCode?_code (u : TimeUnit) : ofCode? u.code = some u := by
  cases u <;> decide

/-- The nanoseconds of a unit; years and months have no fixed length. -/
def nanoseconds? : TimeUnit → Option Nat
  | year | month => none
  | week => some 604800000000000
  | day => some 86400000000000
  | hour => some 3600000000000
  | minute => some 60000000000
  | second => some 1000000000
  | millisecond => some 1000000
  | microsecond => some 1000
  | nanosecond => some 1

end TimeUnit

end Columnar
