import Columnar.Document
import Columnar.Time

/-!
# Values

A value is one element of an array, in full.

## Main definitions

* `Value` — the type.
* `Value.isNull`, `Value.asReal?`, `Value.get?` — what can be asked of a value.
* `Value.recordOf` — a record of fields set one after another.
-/

namespace Columnar

/-- One element of an array. -/
inductive Value
  /-- A missing value. -/
  | null
  /-- A truth value. -/
  | bool (b : Bool)
  /-- An integer of 64 bits. -/
  | int (n : Int64)
  /-- A real. -/
  | real (x : Binary64)
  /-- A complex number. -/
  | complex (z : Complex)
  /-- A point in time, as a count of a unit from the start of 1970. -/
  | datetime (count : Int64) (unit : TimeUnit)
  /-- A duration, as a count of a unit. -/
  | timedelta (count : Int64) (unit : TimeUnit)
  /-- A text. -/
  | string (s : String)
  /-- Bytes. -/
  | bytes (data : List UInt8)
  /-- A list of any length. -/
  | list (items : List Value)
  /-- A tuple, whose slots are known by position. -/
  | tuple (items : List Value)
  /-- A record, whose fields are known by key; no key stands twice. -/
  | record (name : Option String) (fields : List (String × Value))
  deriving Inhabited

namespace Value

/-- Whether a value is missing. -/
def isNull : Value → Bool
  | null => true
  | _ => false

/-- The value as a real, if it is a number without an imaginary part; an integer is rounded
to the nearest real. -/
def asReal? : Value → Option Binary64
  | int n => some (.ofInt n.toInt)
  | real x => some x
  | complex z => if z.im.isZero then some z.re else none
  | _ => none

/-- The field of a key. -/
def get? (v : Value) (key : String) : Option Value :=
  match v with
  | record _ fields => lookup fields key
  | _ => none

/-- A time of either kind. -/
def time (kind : TimeKind) (count : Int64) (unit : TimeUnit) : Value :=
  match kind with
  | .datetime => datetime count unit
  | .timedelta => timedelta count unit

/-- A record of fields; a key that is given twice keeps its place and takes the last value. -/
def recordOf (name : Option String) (fields : List (String × Value)) : Value :=
  .record name (tableOf fields)

end Value

end Columnar
