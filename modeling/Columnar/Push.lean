import Columnar.Value
import Columnar.Text.Encoding
import Columnar.Text.Quoted
import Columnar.Text.Utf8

/-!
# Pushes

An array is grown by pushes: a missing value, a value, the opening or closing of a
container, or the selection of a slot of the innermost open tuple or record.  A push that
cannot be taken is refused with a cause.

## Main definitions

* `Push` — one call.
* `ElementClass`, `Push.elementClass?` — what kind of element a push begins.
* `Push.Container`, `Push.closes?` — the containers, and the one that a push closes.
* `PushCause`, `PushError` — why a push was refused, with its code and message.
* `Pushed` — the outcome of a push, with `Pushed.state` and `Pushed.refusal?`.
-/

namespace Columnar

/-- The kinds of containers. -/
inductive Container
  /-- Any number of items. -/
  | list
  /-- Slots known by position. -/
  | tuple
  /-- Fields known by key. -/
  | record
  deriving DecidableEq, Repr, Inhabited

namespace Container

/-- The name of a kind of container. -/
def name : Container → String
  | list => "list"
  | tuple => "tuple"
  | record => "record"

/-- The call that opens a container. -/
def opener : Container → String
  | list => "beginlist"
  | tuple => "begintuple"
  | record => "beginrecord"

/-- The call that closes a container. -/
def closer : Container → String
  | list => "endlist"
  | tuple => "endtuple"
  | record => "endrecord"

/-- The call that selects a slot of a container that has slots. -/
def selector : Container → String
  | list => "item"
  | tuple => "index"
  | record => "field"

end Container

/-- One call of the push interface. -/
inductive Push
  /-- A missing value. -/
  | null
  /-- A truth value. -/
  | bool (b : Bool)
  /-- An integer. -/
  | int (n : Int64)
  /-- A real. -/
  | real (x : Binary64)
  /-- A complex number. -/
  | complex (z : Complex)
  /-- A point in time or a duration. -/
  | time (kind : TimeKind) (count : Int64) (unit : TimeUnit)
  /-- A time whose unit has no such code. -/
  | unknownUnit (kind : TimeKind) (code : String)
  /-- A string of bytes. -/
  | string (encoding : Encoding) (data : List UInt8)
  /-- Opens a list. -/
  | beginList
  /-- Closes the innermost open list. -/
  | endList
  /-- Opens a tuple of a number of slots. -/
  | beginTuple (arity : Nat)
  /-- Selects a slot of the innermost open tuple. -/
  | index (slot : Nat)
  /-- Closes the innermost open tuple. -/
  | endTuple
  /-- Opens a record, named or not. -/
  | beginRecord (name : Option String)
  /-- Selects a field of the innermost open record; a new field has to be known if
  `check` is set and the fields are settled. -/
  | field (key : String) (check : Bool)
  /-- Closes the innermost open record. -/
  | endRecord
  deriving DecidableEq

/-- The kinds of elements that a column of one kind keeps apart. -/
inductive ElementClass
  /-- Truth values. -/
  | bool
  /-- Integers, reals and complex numbers, which widen into one another. -/
  | number
  /-- Times of one kind and unit. -/
  | time (kind : TimeKind) (unit : TimeUnit)
  /-- Strings of one encoding. -/
  | string (encoding : Encoding)
  /-- Lists. -/
  | list
  /-- Tuples of one number of slots. -/
  | tuple (arity : Nat)
  /-- Records of one name. -/
  | record (name : Option String)
  deriving DecidableEq

namespace Push

/-- A time with the code of its unit. -/
def ofUnitCode (kind : TimeKind) (count : Int64) (code : String) : Push :=
  match TimeUnit.ofCode? code with
  | some unit => .time kind count unit
  | none => .unknownUnit kind code

/-- A text. -/
def text (s : String) : Push := .string .utf8 (Utf8.encodeString s)

/-- The name of a call. -/
def word : Push → String
  | null => "null"
  | bool _ => "boolean"
  | int _ => "integer"
  | real _ => "real"
  | complex _ => "complex"
  | time kind _ _ => kind.word
  | unknownUnit kind _ => kind.word
  | string _ _ => "string"
  | beginList => Container.list.opener
  | endList => Container.list.closer
  | beginTuple _ => Container.tuple.opener
  | index _ => Container.tuple.selector
  | endTuple => Container.tuple.closer
  | beginRecord _ => Container.record.opener
  | field _ _ => Container.record.selector
  | endRecord => Container.record.closer

/-- The class of the element that a push begins: a missing value has none, and closing and
selecting begin no element. -/
def elementClass? : Push → Option ElementClass
  | bool _ => some .bool
  | int _ => some .number
  | real _ => some .number
  | complex _ => some .number
  | time kind _ unit => some (.time kind unit)
  | string encoding _ => some (.string encoding)
  | beginList => some .list
  | beginTuple n => some (.tuple n)
  | beginRecord name => some (.record name)
  | _ => none

/-- The container that a push opens. -/
def opens? : Push → Option Container
  | beginList => some .list
  | beginTuple _ => some .tuple
  | beginRecord _ => some .record
  | _ => none

/-- The container that a push closes. -/
def closes? : Push → Option Container
  | endList => some .list
  | endTuple => some .tuple
  | endRecord => some .record
  | _ => none

/-- The container of which a push selects a slot. -/
def selects? : Push → Option Container
  | index _ => some .tuple
  | field _ _ => some .record
  | _ => none

end Push

/-- Why a push was refused. -/
inductive PushCause
  /-- The innermost open container is not one that the push closes. -/
  | closeWithoutOpen (container : Container)
  /-- The innermost open container is not one that the push selects in. -/
  | selectorOutside (container : Container)
  /-- A value came before a slot was selected. -/
  | noSlotSelected (container : Container)
  /-- The tuple has no such slot. -/
  | indexOutOfRange (index arity : Nat)
  /-- The record has no such field, and its fields are settled. -/
  | unknownField (key : String) (record : Option String) (expected : List String)
  /-- The slot has its value for this element. -/
  | slotAlreadyFilled (slot : String)
  /-- The builder takes no more pushes. -/
  | finalized
  /-- No unit of time has this code. -/
  | invalidTimeUnit (code : String)
  /-- A union has all the kinds that it can number. -/
  | unionOverflow
  /-- Too many containers are open. -/
  | depthLimitExceeded (limit : Nat)
  deriving DecidableEq

/-- The number of kinds that the tags of a union can number. -/
def maxUnionKinds : Nat := 127

namespace PushCause

/-- The code of a cause. -/
def code : PushCause → String
  | closeWithoutOpen _ => "builder::close_without_open"
  | selectorOutside _ => "builder::selector_outside"
  | noSlotSelected _ => "builder::no_slot_selected"
  | indexOutOfRange _ _ => "builder::index_out_of_range"
  | unknownField _ _ _ => "builder::unknown_field"
  | slotAlreadyFilled _ => "builder::slot_already_filled"
  | finalized => "builder::finalized"
  | invalidTimeUnit _ => "builder::invalid_time_unit"
  | unionOverflow => "builder::union_overflow"
  | depthLimitExceeded _ => "builder::depth_limit_exceeded"

/-- A cause in words. -/
def message : PushCause → String
  | closeWithoutOpen c => "called without '" ++ c.opener ++ "' at the same level before it"
  | selectorOutside c => "called outside of an open " ++ c.name
  | noSlotSelected c => "called in an open container before '" ++ c.selector ++ "'"
  | indexOutOfRange i n =>
    "index " ++ toString i ++ " is out of range for a tuple of " ++ toString n ++ " fields"
  | unknownField key record expected =>
    (match record with
      | some name => "record `" ++ name ++ "` has no field `" ++ key ++ "`"
      | none => "record has no field `" ++ key ++ "`")
      ++ ", expected one of: " ++ Quoted.strings expected
  | slotAlreadyFilled slot => "slot `" ++ slot ++ "` already holds a value in this element"
  | finalized => "builder has been finalized"
  | invalidTimeUnit u => "unrecognized time unit `" ++ u ++ "`"
  | unionOverflow => "a union cannot hold more than " ++ toString maxUnionKinds ++ " kinds"
  | depthLimitExceeded n => "more than " ++ toString n ++ " containers open at once"

end PushCause

/-- A refused push: which call it was, and why it was refused. -/
structure PushError where
  /-- The name of the call. -/
  operation : String
  /-- Why it was refused. -/
  cause : PushCause
  deriving DecidableEq

/-- A refused push in words. -/
def PushError.message (e : PushError) : String := "'" ++ e.operation ++ "': " ++ e.cause.message

/-- What was there before a refused push, given back with the error. -/
structure Refused (α : Type) where
  /-- The state, as it is after the refusal. -/
  state : α
  /-- The error. -/
  error : PushError

/-- The outcome of a push: the next state, or a refusal. -/
abbrev Pushed (α : Type) := Except (Refused α) α

/-- Carries an outcome inside a larger state. -/
def Pushed.inside {α β : Type} (f : α → β) : Pushed α → Pushed β
  | .ok a => .ok (f a)
  | .error r => .error ⟨f r.state, r.error⟩

/-- What is there after a push, taken or refused. -/
def Pushed.state {α : Type} : Pushed α → α
  | .ok a => a
  | .error r => r.state

/-- Why a push is refused, if it is. -/
def Pushed.refusal? {α : Type} : Pushed α → Option PushError
  | .ok _ => none
  | .error r => some r.error

@[simp] theorem Pushed.inside_ok {α β : Type} (f : α → β) (a : α) :
    Pushed.inside f (.ok a) = .ok (f a) := rfl

@[simp] theorem Pushed.inside_error {α β : Type} (f : α → β) (r : Refused α) :
    Pushed.inside f (.error r) = .error ⟨f r.state, r.error⟩ := rfl

@[simp] theorem Pushed.state_inside {α β : Type} (f : α → β) (x : Pushed α) :
    (x.inside f).state = f x.state := by
  cases x <;> rfl

@[simp] theorem Pushed.refusal?_inside {α β : Type} (f : α → β) (x : Pushed α) :
    (x.inside f).refusal? = x.refusal? := by
  cases x <;> rfl

end Columnar
