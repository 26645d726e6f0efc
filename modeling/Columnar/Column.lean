import Columnar.Options
import Columnar.Push

/-!
# Columns

A column holds the elements seen so far at one place of an array, split by shape: flat
elements in one run, lists as offsets into a column of their items, tuples and records as
a column per slot, missing elements as an index into the present ones, and elements of
several classes as a union of columns, one per class.

Containers may be open.  The elements of the columns below an open container run ahead of
the container until it is closed; only closed elements count for the length of a column.

## Main definitions

* `Filling` — whether a tuple or a record is open, and which slot is selected.
* `Column` — the type.
* `ColumnKind`, `Column.kind` — what a column is.
* `Column.isActive`, `Column.length` — whether a container is open, and how many elements
  are complete.
* `Column.stringAt?` — a single string.
* `Column.emptyRecords`, `Column.first` — new columns, empty and with their first element.
* `Column.clear` — the same column without its elements.
-/

namespace Columnar

/-- How far the element of a tuple or record that is being filled has come. -/
inductive Filling
  /-- No element is being filled. -/
  | closed
  /-- An element is being filled, and a slot may be selected. -/
  | filling (slot : Option Nat)
  deriving DecidableEq, Repr, Inhabited

namespace Filling

/-- Whether an element is being filled. -/
def isOpen : Filling → Bool
  | closed => false
  | filling _ => true

/-- The selected slot. -/
def slot? : Filling → Option Nat
  | closed => none
  | filling s => s

end Filling

/-- The elements seen at one place of an array. -/
inductive Column
  /-- Nothing but a number of missing elements. -/
  | unknown (nulls : Nat)
  /-- Elements that may be missing: the places of the present ones in `content`, in order.
  The last place may be that of an element still open. -/
  | option (index : Array (Option Nat)) (content : Column)
  /-- Truth values. -/
  | bool (values : Array Bool)
  /-- Integers. -/
  | int64 (values : Array Int64)
  /-- Reals. -/
  | float64 (values : Array Binary64)
  /-- Complex numbers. -/
  | complex128 (values : Array Complex)
  /-- Times of one kind and unit. -/
  | time (kind : TimeKind) (unit : TimeUnit) (counts : Array Int64)
  /-- Strings of one encoding: where each ends in the bytes of all, after a leading zero. -/
  | string (encoding : Encoding) (offsets : Array Nat) (data : Array UInt8)
  /-- Lists: where each ends in the items of all, after a leading zero. -/
  | list (offsets : Array Nat) (content : Column) (isOpen : Bool)
  /-- Tuples, a column per slot. -/
  | tuple (slots : List Column) (length : Nat) (filling : Filling)
  /-- Records, a column per field.  Fields are settled once they are declared or a record
  is closed. -/
  | record (name : Option String) (fields : List (String × Column)) (length : Nat)
      (filling : Filling) (settled declared : Bool)
  /-- Elements of several classes: the child of each and its place there.  The last one may
  be still open, in the child `current`. -/
  | union (tags : Array Nat) (index : Array Nat) (children : List Column) (current : Option Nat)
  deriving Inhabited

/-- What a column is. -/
inductive ColumnKind
  /-- Nothing but missing elements. -/
  | unknown
  /-- Elements that may be missing. -/
  | option
  /-- Truth values. -/
  | bool
  /-- Integers. -/
  | int64
  /-- Reals. -/
  | float64
  /-- Complex numbers. -/
  | complex128
  /-- Points in time. -/
  | datetime
  /-- Durations. -/
  | timedelta
  /-- Strings. -/
  | string
  /-- Lists. -/
  | list
  /-- Tuples. -/
  | tuple
  /-- Records. -/
  | record
  /-- Elements of several classes. -/
  | union
  deriving DecidableEq, Repr

/-- The name of a kind of column. -/
def ColumnKind.name : ColumnKind → String
  | unknown => "unknown"
  | option => "option"
  | bool => "bool"
  | int64 => "int64"
  | float64 => "float64"
  | complex128 => "complex128"
  | datetime => "datetime"
  | timedelta => "timedelta"
  | string => "string"
  | list => "list"
  | tuple => "tuple"
  | record => "record"
  | union => "union"

namespace Column

/-! ### What a column tells -/

/-- The kind of a column. -/
def kind : Column → ColumnKind
  | unknown _ => .unknown
  | option _ _ => .option
  | bool _ => .bool
  | int64 _ => .int64
  | float64 _ => .float64
  | complex128 _ => .complex128
  | time .datetime _ _ => .datetime
  | time .timedelta _ _ => .timedelta
  | string _ _ _ => .string
  | list _ _ _ => .list
  | tuple _ _ _ => .tuple
  | record _ _ _ _ _ _ => .record
  | union _ _ _ _ => .union

/-- Whether a container opened here or below waits for its close. -/
def isActive : Column → Bool
  | option _ content => content.isActive
  | list _ _ isOpen => isOpen
  | tuple _ _ filling => filling.isOpen
  | record _ _ _ filling _ _ => filling.isOpen
  | union _ _ _ current => current.isSome
  | _ => false

/-- The number of complete elements. -/
def length : Column → Nat
  | unknown nulls => nulls
  | option index content => index.size - content.isActive.toNat
  | bool values => values.size
  | int64 values => values.size
  | float64 values => values.size
  | complex128 values => values.size
  | time _ _ counts => counts.size
  | string _ offsets _ => offsets.size - 1
  | list offsets _ _ => offsets.size - 1
  | tuple _ n _ => n
  | record _ _ n _ _ _ => n
  | union tags _ _ current => tags.size - current.isSome.toNat

/-- The bytes of the string at a place, from the offsets and the bytes of a column of
strings; there is none past the last. -/
def stringAt? (offsets : Array Nat) (data : Array UInt8) (i : Nat) : Option (List UInt8) :=
  match offsets[i]?, offsets[i + 1]? with
  | some start, some stop => some (data.extract start stop).toList
  | _, _ => none

/-! ### New columns -/

/-- The columns of the fields that records of a name start with. -/
def declaredColumns (fields : List String) : List (String × Column) :=
  tableOf (fields.map fun key => (key, .unknown 0))

/-- A column of records of a name, without any: the declared fields are settled. -/
def emptyRecords (o : Options) (name : Option String) : Column :=
  match o.declaredFields? name with
  | some fields => .record name (declaredColumns fields) 0 .closed true true
  | none => .record name [] 0 .closed false false

/-- A column that has taken one push as its first.  The push begins an element; for any
other one the column is empty. -/
def first (o : Options) : Push → Column
  | .bool b => .bool #[b]
  | .int n => .int64 #[n]
  | .real x => .float64 #[x]
  | .complex z => .complex128 #[z]
  | .time kind count unit => .time kind unit #[count]
  | .string encoding data => .string encoding #[0, data.length] data.toArray
  | .beginList => .list #[0] (.unknown 0) true
  | .beginTuple n => .tuple (List.replicate n (.unknown 0)) 0 (.filling none)
  | .beginRecord name =>
    match emptyRecords o name with
    | .record name fields n _ settled declared =>
      .record name fields n (.filling none) settled declared
    | c => c
  | _ => .unknown 0

/-! ### Clearing -/

mutual

/-- The column without its elements.  Kinds, slots and fields stay; fields that were not
declared are no longer settled. -/
def clear : Column → Column
  | .unknown _ => .unknown 0
  | .option _ content => .option #[] content.clear
  | .bool _ => .bool #[]
  | .int64 _ => .int64 #[]
  | .float64 _ => .float64 #[]
  | .complex128 _ => .complex128 #[]
  | .time kind unit _ => .time kind unit #[]
  | .string encoding _ _ => .string encoding #[0] #[]
  | .list _ content _ => .list #[0] content.clear false
  | .tuple slots _ _ => .tuple (clearAll slots) 0 .closed
  | .record name fields _ _ _ declared =>
    .record name (clearFields fields) 0 .closed declared declared
  | .union _ _ children _ => .union #[] #[] (clearAll children) none

/-- Clears every column of a list. -/
def clearAll : List Column → List Column
  | [] => []
  | c :: cs => c.clear :: clearAll cs

/-- Clears the column of every field. -/
def clearFields : List (String × Column) → List (String × Column)
  | [] => []
  | (key, c) :: rest => (key, c.clear) :: clearFields rest

end

end Column

end Columnar
