import Columnar.Json.Failure
import Columnar.Json.Number
import Columnar.Json.StringContent
import Columnar.Options

/-!
# The grammar of values

A text holds values one after another.  The grammar is followed with a stack that has a
frame for each open container, which knows what may come next in it; without open
containers, a value comes next.  A token moves the stack on and stands for at most one
push: a colon and a comma stand for none.

## Main definitions

* `ReadOptions` — the settings.
* `Frame`, `Progress` — how far the text has been followed.
* `Progress.expected` — what may come next.
* `ReadOptions.scalarPush` — the push of a token that is a whole value.
* `Progress.advance` — one token.
* `Progress.finish` — the end of the text.
-/

namespace Columnar

/-- What becomes of an integer that does not fit in 64 bits. -/
inductive IntegerOverflow
  /-- It becomes the nearest real. -/
  | promote
  /-- It is an error. -/
  | error
  deriving DecidableEq, Repr

/-- The settings for taking in text. -/
structure ReadOptions where
  /-- The string that means not-a-number. -/
  nan? : Option String := none
  /-- The string that means infinity. -/
  infinity? : Option String := none
  /-- The string that means negative infinity. -/
  minusInfinity? : Option String := none
  /-- Whether records keep to the fields that are settled for them. -/
  check : Bool := false
  /-- What becomes of integers that are too large. -/
  integerOverflow : IntegerOverflow := .promote
  /-- The size of the buffer before a source. -/
  bufferSize : Nat := 8192
  /-- The number of containers that may be open at once. -/
  maxDepth : Nat := defaultMaxDepth
  deriving DecidableEq, Repr

namespace ReadOptions

/-- The real that a string means instead of itself. -/
def nonFinite? (o : ReadOptions) (text : String) : Option Binary64 :=
  if o.nan? = some text then some .nan
  else if o.infinity? = some text then some (.infinity false)
  else if o.minusInfinity? = some text then some (.infinity true)
  else none

/-- The push of a string. -/
def textPush (o : ReadOptions) (text : String) : Push :=
  match o.nonFinite? text with
  | some x => .real x
  | none => .text text

/-- The push of a number, unless it is too large and that is an error. -/
def numberPush? (o : ReadOptions) : Number → Option Push
  | .int n => some (.int n)
  | .real x => some (.real x)
  | .large x =>
    match o.integerOverflow with
    | .promote => some (.real x)
    | .error => none

/-- The push of a token that is a whole value; any other token is not what is expected. -/
def scalarPush (o : ReadOptions) (expected : Expected) (t : Located) : Except JsonError Push :=
  match t.token with
  | .null => .ok .null
  | .bool b => .ok (.bool b)
  | .string content hasEscapes =>
    match StringContent.decode (t.span.offset + 1) content hasEscapes with
    | .ok text => .ok (o.textPush text)
    | .error e => .error (.ofScan e)
  | .number literal shape =>
    match Number.parse shape t.span.offset literal.length literal with
    | .ok n =>
      match o.numberPush? n with
      | some p => .ok p
      | none => .error ⟨.numberOutOfRange (Utf8.lossy literal), t.span⟩
    | .error e => .error (.ofScan e)
  | got => .error ⟨.unexpectedToken got expected, t.span⟩

end ReadOptions

/-! ### Open containers -/

/-- What may come next in an open list. -/
inductive ListPlace
  /-- Its first item or its end. -/
  | start
  /-- An item. -/
  | item
  /-- A comma or its end. -/
  | behindItem
  deriving DecidableEq, Repr

/-- What may come next in an open record. -/
inductive RecordPlace
  /-- Its first key or its end. -/
  | start
  /-- A key. -/
  | key
  /-- The colon behind a key. -/
  | colon
  /-- The value of a key. -/
  | value
  /-- A comma or its end. -/
  | behindValue
  deriving DecidableEq, Repr

/-- An open container. -/
inductive Frame
  /-- A list. -/
  | list (place : ListPlace)
  /-- A record. -/
  | record (place : RecordPlace)
  deriving DecidableEq, Repr

namespace Frame

/-- What the grammar wants next in a container. -/
def expected : Frame → Expected
  | list .start => .value
  | list .item => .value
  | list .behindItem => .commaOrBracket
  | record .start => .keyOrEnd
  | record .key => .key
  | record .colon => .colon
  | record .value => .value
  | record .behindValue => .commaOrBrace

/-- A container behind a complete value. -/
def behind : Frame → Frame
  | list _ => list .behindItem
  | record _ => record .behindValue

end Frame

/-- How far a text has been followed. -/
structure Progress where
  /-- The open containers, the innermost first. -/
  frames : List Frame
  /-- The number of complete values outside of all containers. -/
  count : Nat
  deriving DecidableEq, Repr

namespace Progress

/-- The start of a text. -/
def start : Progress := ⟨[], 0⟩

/-- What the grammar wants next. -/
def expected : Progress → Expected
  | ⟨[], _⟩ => .value
  | ⟨f :: _, _⟩ => f.expected

/-- Behind a complete value. -/
def complete : Progress → Progress
  | ⟨[], count⟩ => ⟨[], count + 1⟩
  | ⟨f :: outer, count⟩ => ⟨f.behind :: outer, count⟩

/-- Inside one more container. -/
def enter (s : Progress) (f : Frame) : Progress := { s with frames := f :: s.frames }

/-- A token moves on to a new state and stands for a push, or for none. -/
abbrev Advance := Except JsonError (Progress × Option Push)

/-- A token where a value comes next. -/
def advanceValue (o : ReadOptions) (s : Progress) (t : Located) : Advance :=
  if t.token.isOpening ∧ o.maxDepth ≤ s.frames.length then
    .error ⟨.depthLimitExceeded o.maxDepth, t.span⟩
  else
    match t.token with
    | .objectStart => .ok (s.enter (.record .start), some (.beginRecord none))
    | .arrayStart => .ok (s.enter (.list .start), some .beginList)
    | _ => (o.scalarPush s.expected t).map fun p => (s.complete, some p)

/-- A token where a key comes next. -/
def advanceKey (o : ReadOptions) (s : Progress) (outer : List Frame) (t : Located) : Advance :=
  match t.token with
  | .string content hasEscapes =>
    match StringContent.decode (t.span.offset + 1) content hasEscapes with
    | .ok key => .ok ({ s with frames := .record .colon :: outer }, some (.field key o.check))
    | .error e => .error (.ofScan e)
  | got => .error ⟨.unexpectedToken got s.expected, t.span⟩

/-- One token. -/
def advance (o : ReadOptions) (s : Progress) (t : Located) : Advance :=
  match s.frames, t.token with
  | .list .start :: outer, .arrayEnd =>
    .ok (complete { s with frames := outer }, some .endList)
  | .list .behindItem :: outer, .arrayEnd =>
    .ok (complete { s with frames := outer }, some .endList)
  | .list .behindItem :: outer, .comma => .ok ({ s with frames := .list .item :: outer }, none)
  | .list .behindItem :: _, got => .error ⟨.unexpectedToken got s.expected, t.span⟩
  | .record .start :: outer, .objectEnd =>
    .ok (complete { s with frames := outer }, some .endRecord)
  | .record .start :: outer, _ => s.advanceKey o outer t
  | .record .key :: outer, _ => s.advanceKey o outer t
  | .record .colon :: outer, .colon => .ok ({ s with frames := .record .value :: outer }, none)
  | .record .colon :: _, got => .error ⟨.unexpectedToken got s.expected, t.span⟩
  | .record .behindValue :: outer, .objectEnd =>
    .ok (complete { s with frames := outer }, some .endRecord)
  | .record .behindValue :: outer, .comma => .ok ({ s with frames := .record .key :: outer }, none)
  | .record .behindValue :: _, got => .error ⟨.unexpectedToken got s.expected, t.span⟩
  | _, _ => s.advanceValue o t

/-- The end of the text: the number of values, if no container is open. -/
def finish (s : Progress) (offset : Nat) : Except JsonError Nat :=
  match s.frames with
  | [] => .ok s.count
  | f :: _ => .error ⟨.unexpectedEof f.expected, ⟨offset, 0⟩⟩

end Progress

end Columnar
