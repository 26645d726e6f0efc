import Columnar.Form
import Columnar.Buffer
import Columnar.Growable
import Columnar.Value
import Columnar.Text.Encoding
import Columnar.Text.Utf8

/-!
# Reading values

The values of an array are read from its form and buffers.  Every buffer is checked before
it is used, so the buffers may come from anywhere: each has to be there, of the right type
and long enough, and no offset, place or tag may point outside of what it refers to.

A length counts in machine words.  A list of `n` elements needs `n + 1` offsets, and the
greatest word has no successor: with no offset to look at, reading breaks off.  It also breaks
off where one block of memory cannot hold the values of a column.  The buffers of most nodes
would have to be as long, but records without fields need no buffer at all, and how many of them
are asked for may come out of a buffer above.

## Main definitions

* `ReadCause`, `ReadError`, `ReadFailure` — why nothing could be read.
* `maxValues` — how many values one block of memory can hold.
* `Form.buffer` — the start of a buffer of a node, as elements of one type.
* `Form.readColumn` — the first elements of an array.
* `Form.toValues` — the same as a list.
-/

namespace Columnar

/-- Why a form and buffers do not make an array. -/
inductive ReadCause
  /-- A node has no key by which to find its buffers. -/
  | missingFormKey
  /-- A buffer is not there. -/
  | missingBuffer (name : String)
  /-- A buffer has elements of another type. -/
  | bufferType (name expected found : String)
  /-- A buffer is too short. -/
  | bufferTooShort (name : String) (needed size : Nat)
  /-- An offset, place or tag points outside of what it refers to. -/
  | outOfRange (name : String) (value : Int)
  /-- The bytes of a text are not UTF-8. -/
  | invalidUtf8 (name : String)
  /-- Elements were asked of an array without any. -/
  | nonEmptyEmptyArray (length : Nat)
  deriving DecidableEq

namespace ReadCause

/-- The code of a cause. -/
def code : ReadCause → String
  | missingFormKey => "read::missing_form_key"
  | missingBuffer _ => "read::missing_buffer"
  | bufferType _ _ _ => "read::buffer_type"
  | bufferTooShort _ _ _ => "read::buffer_too_short"
  | outOfRange _ _ => "read::out_of_range"
  | invalidUtf8 _ => "read::invalid_utf8"
  | nonEmptyEmptyArray _ => "read::non_empty_empty_array"

/-- A cause in words. -/
def message : ReadCause → String
  | missingFormKey => "form has no form_key"
  | missingBuffer name => "missing buffer `" ++ name ++ "`"
  | bufferType name expected found =>
    "buffer `" ++ name ++ "` holds " ++ found ++ ", expected " ++ expected
  | bufferTooShort name needed size =>
    "buffer `" ++ name ++ "` has " ++ toString size ++ " elements, needed " ++ toString needed
  | outOfRange name value =>
    "buffer `" ++ name ++ "` entry " ++ toString value ++ " is out of range"
  | invalidUtf8 name => "buffer `" ++ name ++ "` is not valid UTF-8"
  | nonEmptyEmptyArray n => "EmptyArray cannot have length " ++ toString n

end ReadCause

/-- An error at a node of a form. -/
structure ReadError where
  /-- The key of the node, if it has one. -/
  key? : Option String
  /-- What is wrong there. -/
  cause : ReadCause
  deriving DecidableEq

/-- An error in words. -/
def ReadError.message (e : ReadError) : String :=
  match e.key? with
  | some key => key ++ ": " ++ e.cause.message
  | none => e.cause.message

/-- How reading can fail. -/
inductive ReadFailure
  /-- The form and the buffers do not fit. -/
  | error (e : ReadError)
  /-- Reading broke off: a length has no successor among the words, or there is no memory for so
  many values. -/
  | broken
  deriving DecidableEq

/-- What reading gives. -/
abbrev Reading (α : Type) := Except ReadFailure α

/-- The sizes that a word can hold, as a bound. -/
def sizeBound : Nat := 0x10000000000000000

/-- The greatest signed word. -/
def maxInt64 : Int := 0x7fffffffffffffff

/-- A value takes as many bytes as the largest kind of value does, a record: 24 for its name and
72 for the table of its fields. -/
instance : FixedWidth Value := ⟨24 + 72⟩

/-- How many values one block of memory can hold. -/
def maxValues : Nat := maxBytes / FixedWidth.width Value

namespace Form

/-- An error at a node. -/
def fail {α : Type} (f : Form) (cause : ReadCause) : Reading α :=
  .error (.error ⟨f.key?, cause⟩)

/-- An entry of a buffer of a node that points outside. -/
def outOfRange {α : Type} (partition : String) (f : Form) (role : String) (value : Int) :
    Reading α :=
  f.fail (.outOfRange (bufferName partition (f.key?.getD "") role) value)

/-- Goes on where a condition holds, and breaks off elsewhere. -/
def ensure (p : Prop) [Decidable p] : Reading Unit := if p then .ok () else .error .broken

/-- A type of buffer elements: its name, and the data of a buffer that has it. -/
structure Elements (α : Type) where
  /-- The name of the type. -/
  name : String
  /-- The data of a buffer of the type. -/
  ofBuffer? : Buffer → Option (Array α)

namespace Elements

/-- Truth values. -/
def bool : Elements Bool := ⟨"bool", fun | .bool d => some d | _ => none⟩

/-- Signed bytes. -/
def int8 : Elements Int := ⟨"int8", fun | .int8 d => some d | _ => none⟩

/-- Bytes. -/
def uint8 : Elements UInt8 := ⟨"uint8", fun | .uint8 d => some d | _ => none⟩

/-- Signed words. -/
def int64 : Elements Int := ⟨"int64", fun | .int64 d => some d | _ => none⟩

/-- Reals. -/
def float64 : Elements Binary64 := ⟨"float64", fun | .float64 d => some d | _ => none⟩

/-- Complex numbers. -/
def complex128 : Elements Complex := ⟨"complex128", fun | .complex128 d => some d | _ => none⟩

end Elements

/-- The first `needed` elements of a buffer of a node. -/
def buffer {α : Type} (table : Buffers) (partition : String) (f : Form) (role : String)
    (elements : Elements α) (needed : Nat) : Reading (Array α) :=
  match f.key? with
  | none => f.fail .missingFormKey
  | some key =>
    let name := bufferName partition key role
    match lookup table name with
    | none => f.fail (.missingBuffer name)
    | some b =>
      match elements.ofBuffer? b with
      | none => f.fail (.bufferType name elements.name b.elementName)
      | some data =>
        if needed ≤ data.size then .ok (data.take needed)
        else f.fail (.bufferTooShort name needed data.size)

/-! ### Flat buffers -/

/-- The elements of a flat buffer. -/
def readFlat (table : Buffers) (partition : String) (f : Form) (primitive : Primitive)
    (length : Nat) : Reading (Array Value) :=
  match primitive with
  | .bool => (f.buffer table partition "data" .bool length).map (·.map .bool)
  | .uint8 => (f.buffer table partition "data" .uint8 length).map
      (·.map fun b => .int (Int64.ofNat b.toNat))
  | .int64 => (f.buffer table partition "data" .int64 length).map
      (·.map fun n => .int (Int64.ofInt n))
  | .float64 => (f.buffer table partition "data" .float64 length).map (·.map .real)
  | .complex128 => (f.buffer table partition "data" .complex128 length).map (·.map .complex)
  | .time kind unit => (f.buffer table partition "data" .int64 length).map
      (·.map fun n => Value.time kind (Int64.ofInt n) unit)

/-! ### Offsets -/

/-- The first offset that is smaller than the one before it, the first of all being compared
with `previous`. -/
def firstDescent? (previous : Int) : List Int → Option Int
  | [] => none
  | x :: xs => if x < previous then some x else firstDescent? x xs

/-- The offsets of a number of lists: they start at zero or above and never decrease. -/
def readOffsets (table : Buffers) (partition : String) (f : Form) (length : Nat) :
    Reading (Array Int) := do
  let offsets ← f.buffer table partition "offsets" .int64 ((length + 1) % sizeBound)
  match firstDescent? 0 offsets.toList with
  | some x => f.outOfRange partition "offsets" x
  | none => .ok offsets

/-- Neighbouring entries, each with the next one, as sizes. -/
def spans : List Int → List (Nat × Nat)
  | a :: b :: rest => (a.toNat, b.toNat) :: spans (b :: rest)
  | _ => []

/-- The elements of one span. -/
def slice {α : Type} (items : Array α) (span : Nat × Nat) : List α :=
  (items.extract span.1 span.2).toList

/-- A string of the bytes of a span; text has to be valid. -/
def readString (partition : String) (content : Form) (isText : Bool) (bytes : Array UInt8)
    (span : Nat × Nat) : Reading Value :=
  let item := slice bytes span
  if isText then
    match Utf8.decodeString? item with
    | some s => .ok (.string s)
    | none => content.fail (.invalidUtf8 (bufferName partition (content.key?.getD "") "data"))
  else .ok (.bytes item)

/-- Whether lists are annotated as strings, and as which. -/
def stringKind? (f : Form) : Option Encoding :=
  ((f.parameter? arrayParameter).bind Document.asString?).bind Encoding.ofArrayName?

/-! ### Places and tags -/

/-- The size of what a list of places needs: one more than the greatest of them.  The
greatest word has no successor. -/
def sizeOfPlaces (partition : String) (f : Form) (role : String) (start : Nat) :
    List Int → Reading Nat
  | [] => .ok start
  | i :: rest =>
    if maxInt64 ≤ i then f.outOfRange partition role i
    else sizeOfPlaces partition f role (max start (i + 1).toNat) rest

/-- The item at a place; a negative one is missing. -/
def itemAt (items : Array Value) (i : Int) : Value :=
  if i < 0 then .null else (items[i.toNat]?).getD .null

/-- The sizes of what the children of a union need, given those needed so far. -/
def sizesOfTagged (partition : String) (f : Form) (sizes : List Nat) :
    List (Int × Int) → Reading (List Nat)
  | [] => .ok sizes
  | (tag, i) :: rest =>
    if tag < 0 ∨ sizes.length ≤ tag.toNat then f.outOfRange partition "tags" tag
    else if i < 0 then f.outOfRange partition "index" i
    else sizesOfTagged partition f (sizes.modify tag.toNat (max · (i.toNat + 1))) rest

/-- The element of a tag and a place. -/
def taggedItem (columns : List (Array Value)) (e : Int × Int) : Value :=
  ((columns[e.1.toNat]?).bind (·[e.2.toNat]?)).getD .null

/-! ### Rows -/

/-- The elements of all columns in one row. -/
def row (columns : List (Array Value)) (i : Nat) : List Value :=
  columns.map fun items => (items[i]?).getD .null

/-- The value of a row: a record of the keys, paired up with the elements as far as both go,
or a tuple. -/
def rowValue (keys : Option (List String)) (name : Option String) (items : List Value) : Value :=
  match keys with
  | some keys => .recordOf name (keys.zip items)
  | none => .tuple items

/-! ### Columns -/

mutual

/-- The first `length` elements of an array, put together once all below it has been read. -/
def readColumn (table : Buffers) (partition : String) : Form → Nat → Reading (Array Value)
  | .empty l, length =>
    if length = 0 then .ok #[] else (Form.empty l).fail (.nonEmptyEmptyArray length)
  | .flat primitive l, length => do
    let items ← readFlat table partition (.flat primitive l) primitive length
    ensure (length ≤ maxValues)
    return items
  | .list width content l, length => do
    let f := Form.list width content l
    let offsets ← readOffsets table partition f length
    match offsets[length]? with
    | none => .error .broken
    | some total =>
      match f.stringKind? with
      | some encoding =>
        -- strings are read from the bytes below, not as lists of numbers
        let bytes ← content.buffer table partition "data" .uint8 total.toNat
        let items ← (spans offsets.toList).mapM
          (readString partition content (encoding == .utf8) bytes)
        ensure (length ≤ maxValues)
        return items.toArray
      | none =>
        let items ← readColumn table partition content total.toNat
        ensure (length ≤ maxValues)
        return ((spans offsets.toList).map fun s => Value.list (slice items s)).toArray
  | .option width content l, length => do
    let f := Form.option width content l
    let index ← f.buffer table partition "index" .int64 length
    -- the content is read as far as the places go
    let size ← sizeOfPlaces partition f "index" 0 index.toList
    let items ← readColumn table partition content size
    ensure (length ≤ maxValues)
    return index.map (itemAt items)
  | .record contents keys l, length => do
    let columns ← readColumns table partition contents length
    ensure (length ≤ maxValues)
    let name := (lookup l.parameters recordParameter).bind Document.asString?
    return (Array.range length).map fun i => rowValue keys name (row columns i)
  | .union tagWidth width contents l, length => do
    let f := Form.union tagWidth width contents l
    let tags ← f.buffer table partition "tags" .int8 length
    let index ← f.buffer table partition "index" .int64 length
    let entries := tags.toList.zip index.toList
    -- each child is read as far as its places go
    let sizes ← sizesOfTagged partition f (contents.map fun _ => 0) entries
    let columns ← readSized table partition contents sizes
    ensure (length ≤ maxValues)
    return (entries.map (taggedItem columns)).toArray

/-- The first `length` elements of each of several arrays. -/
def readColumns (table : Buffers) (partition : String) :
    List Form → Nat → Reading (List (Array Value))
  | [], _ => .ok []
  | f :: fs, length => do
    let head ← readColumn table partition f length
    return head :: (← readColumns table partition fs length)

/-- The first elements of each of several arrays, a number for each. -/
def readSized (table : Buffers) (partition : String) :
    List Form → List Nat → Reading (List (Array Value))
  | f :: fs, n :: ns => do
    let head ← readColumn table partition f n
    return head :: (← readSized table partition fs ns)
  | _, _ => .ok []

end

theorem readColumn_empty (table : Buffers) (partition : String) (l : FormLabel) :
    readColumn table partition (.empty l) 0 = .ok #[] := by
  rw [readColumn, if_pos rfl]

/-- The first `length` values of the array that a form and a table of buffers describe. -/
def toValues (f : Form) (length : Nat) (table : Buffers) (partition : String) :
    Reading (List Value) :=
  (readColumn table partition f length).map Array.toList

end Form

end Columnar
