import Columnar.Json.Call

/-!
# Writing JSON text

Text is written by steps that have to nest: containers are closed in the order in which
they were opened, and in a record each value follows its key.  Values outside of all
containers stand on lines of their own.  A step adds text at the end; what it adds depends
on the open containers alone.  A call that does not fit is rejected and changes nothing.

## Main definitions

* `Misuse` — why a call is rejected.
* `Open`, `Encoder` — the open containers.
* `Encoder.step`, `Encoder.call` — what a step and a call add.
-/

namespace Columnar

/-! ### Open containers -/

/-- Why a call is rejected. -/
inductive Misuse
  /-- A value, by a call of this name, comes in a record without a key. -/
  | valueWithoutKey (name : String)
  /-- No list is the innermost open container. -/
  | endListOutside
  /-- No record is the innermost open container. -/
  | endRecordOutside
  /-- The last key of the record has no value. -/
  | endRecordBehindKey
  /-- A key comes where no record is the innermost open container. -/
  | keyOutside
  /-- A key follows a key. -/
  | keyBehindKey
  deriving DecidableEq, Repr

namespace Misuse

/-- The name of the rejected call. -/
def name : Misuse → String
  | valueWithoutKey name => name
  | endListOutside => "end_list"
  | endRecordOutside | endRecordBehindKey => "end_record"
  | keyOutside | keyBehindKey => "field"

/-- What is wrong with the call, in words. -/
def words : Misuse → String
  | valueWithoutKey _ => "called in a record without 'field' before it"
  | endListOutside => "called without a matching 'begin_list'"
  | endRecordOutside => "called without a matching 'begin_record'"
  | endRecordBehindKey => "called after 'field' without a value"
  | keyOutside => "called outside of a record"
  | keyBehindKey => "called twice without a value in between"

/-- A rejection in words. -/
def message (m : Misuse) : String := "'" ++ m.name ++ "' " ++ m.words

end Misuse

/-- An open container. -/
inductive Open
  /-- A list, and whether it has no items yet. -/
  | list (isEmpty : Bool)
  /-- A record, whether it has no fields yet, and whether a key waits for its value. -/
  | record (isEmpty isKeyed : Bool)
  deriving DecidableEq, Repr

/-- How far a text has been written. -/
structure Encoder where
  /-- The open containers, the innermost first. -/
  stack : List Open
  /-- Whether there are values outside of all containers. -/
  hasValues : Bool
  deriving DecidableEq, Repr

namespace Encoder

/-- The start of a text. -/
def start : Encoder := ⟨[], false⟩

/-- The next state and the text that is added, or a rejection. -/
abbrev Added := Except Misuse (Encoder × List Char)

/-- A new line, indented below a number of containers, if lines are wanted. -/
def newLine (o : WriteOptions) (depth : Nat) : List Char :=
  if o.pretty then '\n' :: (List.replicate depth o.indent.toList).flatten else []

/-- The comma behind the last item or field, if there is one. -/
def separator (isEmpty : Bool) : List Char := if isEmpty then [] else [',']

/-- The line of the end of a container; an empty one ends where it starts. -/
def lastLine (o : WriteOptions) (isEmpty : Bool) (depth : Nat) : List Char :=
  if isEmpty then [] else newLine o depth

/-- What stands between the text so far and a value, by a call of the given name. -/
def beforeValue (o : WriteOptions) (name : String) : Encoder → Added
  | ⟨[], hasValues⟩ => .ok (⟨[], true⟩, if hasValues then ['\n'] else [])
  | ⟨.list isEmpty :: outer, hasValues⟩ =>
    .ok (⟨.list false :: outer, hasValues⟩, separator isEmpty ++ newLine o (outer.length + 1))
  | ⟨.record isEmpty true :: outer, hasValues⟩ =>
    .ok (⟨.record isEmpty false :: outer, hasValues⟩, [])
  | ⟨.record _ false :: _, _⟩ => .error (.valueWithoutKey name)

/-- Inside one more container. -/
def enter (c : Open) (e : Encoder) : Encoder := { e with stack := c :: e.stack }

/-- What a step adds. -/
def step (o : WriteOptions) (e : Encoder) : Step → Added
  | .value name text => (e.beforeValue o name).map fun (e, before) => (e, before ++ text)
  | .beginList =>
    (e.beforeValue o "begin_list").map fun (e, before) => (e.enter (.list true), before ++ ['['])
  | .beginRecord =>
    (e.beforeValue o "begin_record").map fun (e, before) =>
      (e.enter (.record true false), before ++ ['\x7b'])
  | .endList =>
    match e.stack with
    | .list isEmpty :: outer =>
      .ok ({ e with stack := outer }, lastLine o isEmpty outer.length ++ [']'])
    | _ => .error .endListOutside
  | .endRecord =>
    match e.stack with
    | .record _ true :: _ => .error .endRecordBehindKey
    | .record isEmpty false :: outer =>
      .ok ({ e with stack := outer }, lastLine o isEmpty outer.length ++ ['\x7d'])
    | _ => .error .endRecordOutside
  | .field key =>
    match e.stack with
    | .record _ true :: _ => .error .keyBehindKey
    | .record isEmpty false :: outer =>
      .ok ({ e with stack := .record false true :: outer },
        separator isEmpty ++ newLine o (outer.length + 1) ++ quotedText key
          ++ ':' :: (if o.pretty then [' '] else []))
    | _ => .error .keyOutside

/-- What steps add one after another; if one is rejected, none counts. -/
def steps (o : WriteOptions) (e : Encoder) : List Step → Added
  | [] => .ok (e, [])
  | s :: rest =>
    match e.step o s with
    | .error m => .error m
    | .ok (e, text) => (steps o e rest).map fun (e, more) => (e, text ++ more)

/-- What a call adds. -/
def call (o : WriteOptions) (e : Encoder) (c : Call) : Added := e.steps o (c.steps o)

@[simp] theorem steps_nil (o : WriteOptions) (e : Encoder) : e.steps o [] = .ok (e, []) := rfl

/-- A single step adds what it adds by itself. -/
@[simp] theorem steps_singleton (o : WriteOptions) (e : Encoder) (s : Step) :
    e.steps o [s] = e.step o s := by
  simp only [steps]
  cases h : e.step o s with
  | error m => rfl
  | ok r => simp [Except.map]

end Encoder

end Columnar
