import Columnar.Json.TextWriter
import Columnar.Text.Utf8
import Columnar.Time.Instant
import Columnar.Value

/-!
# Values as JSON text

JSON has no times, tuples, bytes or names of records.  A point in time is written as a text
where its unit has a fixed length and the calendar reaches it, and as a bare count
otherwise; a duration is a count, a tuple is a list, bytes are the text they are meant to
be, and the name of a record is left out.

## Main definitions

* `Value.calls` — the calls that write a value.
* `Value.text`, `Value.lines` — a value, and several, as text.
-/

namespace Columnar

namespace Value

/-- The call of a point in time: a text, or a bare count if there is no such text. -/
def datetimeCall (count : Int64) (unit : TimeUnit) : Call :=
  match datetimeText? count unit with
  | some text => .string text
  | none => .int count

mutual

/-- The calls that write a value.  Tuples are written as lists, durations as counts, and
the names of records are left out; bytes are written as the text they are meant to be. -/
def calls : Value → List Call
  | .null => [.null]
  | .bool b => [.bool b]
  | .int n => [.int n]
  | .real x => [.real x]
  | .complex z => [.complex z]
  | .datetime n unit => [datetimeCall n unit]
  | .timedelta n _ => [.int n]
  | .string s => [.string s]
  | .bytes data => [.string (Utf8.lossy data)]
  | .list items => .beginList :: itemCalls items ++ [.endList]
  | .tuple items => .beginList :: itemCalls items ++ [.endList]
  | .record _ fields => .beginRecord :: fieldCalls fields ++ [.endRecord]

/-- The calls that write values one after another. -/
def itemCalls : List Value → List Call
  | [] => []
  | v :: vs => calls v ++ itemCalls vs

/-- The calls that write the fields of a record. -/
def fieldCalls : List (String × Value) → List Call
  | [] => []
  | (key, v) :: rest => .field key :: calls v ++ fieldCalls rest

end

/-- The text of a value. -/
def text (o : WriteOptions) (v : Value) : Except Misuse String :=
  ((TextWriter.new o).callAll v.calls).map TextWriter.text

/-- The texts of values, on lines of their own. -/
def lines (o : WriteOptions) (vs : List Value) : Except Misuse String :=
  ((TextWriter.new o).callAll (itemCalls vs)).map TextWriter.text

end Value

end Columnar
