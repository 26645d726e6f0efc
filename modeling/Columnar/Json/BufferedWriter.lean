import Columnar.Json.Encoder
import Columnar.Text.Utf8

/-!
# Writing to a sink

A buffered writer hands its text on to a sink, which may have room for only so many bytes.
The text of a call goes to a buffer if there is room, and past it to the sink if the whole
buffer is too small for it.  The text of a call that could not be handed on stays with the
writer, and the next call hands it on before its own.

## Main definitions

* `WriteError` — why a call fails.
* `Sink`, `Sink.write` — a place for bytes.
* `BufferedWriter` — a writer before a sink.
* `BufferedWriter.call`, `BufferedWriter.callAll`, `BufferedWriter.flush` — the writer after
  calls and after its buffer was handed on.
-/

namespace Columnar

/-- Why a call fails. -/
inductive WriteError
  /-- The call does not fit the open containers. -/
  | misuse (m : Misuse)
  /-- The sink failed with these words. -/
  | io (words : String)
  deriving DecidableEq

namespace WriteError

/-- The code of an error. -/
def code : WriteError → String
  | misuse _ => "json::write_structure"
  | io _ => "json::write_io"

/-- An error in words. -/
def message : WriteError → String
  | misuse m => m.message
  | io words => "I/O error: " ++ words

/-- Whether the sink is at fault. -/
def isIo : WriteError → Bool
  | misuse _ => false
  | io _ => true

end WriteError

/-! ### Sinks -/

/-- A place for bytes. -/
structure Sink where
  /-- The number of bytes there is room for, if it is limited. -/
  limit? : Option Nat
  /-- The bytes that it has taken. -/
  taken : List UInt8
  deriving DecidableEq, Repr

namespace Sink

/-- The words with which a sink without room fails. -/
def full : String := "sink full"

/-- How many of a number of bytes there is room for. -/
def room (s : Sink) (n : Nat) : Nat :=
  match s.limit? with
  | some limit => min n (limit - s.taken.length)
  | none => n

/-- The sink with as many of the bytes as there is room for, and the bytes left over. -/
def write (s : Sink) (bytes : List UInt8) : Sink × List UInt8 :=
  let n := s.room bytes.length
  (⟨s.limit?, s.taken ++ bytes.take n⟩, bytes.drop n)

end Sink

/-- A writer that hands its text on. -/
structure BufferedWriter where
  /-- The settings. -/
  options : WriteOptions
  /-- The open containers. -/
  encoder : Encoder
  /-- The text that could not be handed on. -/
  retained : List UInt8
  /-- The bytes on their way to the sink. -/
  buffer : List UInt8
  /-- The number of bytes that the buffer has room for. -/
  capacity : Nat
  /-- Where the bytes go. -/
  sink : Sink

namespace BufferedWriter

/-- The size of a buffer unless set otherwise. -/
def defaultCapacity : Nat := 8192

/-- A writer without text, with a buffer of the given size, at least one byte. -/
def new (o : WriteOptions) (size : Nat) (sink : Sink) : BufferedWriter :=
  ⟨o, .start, [], [], max size 1, sink⟩

/-- A writer, and what went wrong. -/
abbrev Written := BufferedWriter × Option WriteError

/-- What it means that a sink left bytes over. -/
def shortfall (left : List UInt8) : Option WriteError :=
  if left.isEmpty then none else some (.io Sink.full)

/-- The writer with the bytes of the buffer handed on; those the sink left over stay. -/
def flush (w : BufferedWriter) : Written :=
  let (sink, left) := w.sink.write w.buffer
  ({ w with sink, buffer := left }, shortfall left)

/-- Whether bytes find room in the buffer as it is. -/
def fits (w : BufferedWriter) (bytes : List UInt8) : Bool :=
  decide (w.buffer.length + bytes.length ≤ w.capacity)

/-- The writer with bytes put into the buffer, or past it into the sink if the whole buffer
has no room for more than them. -/
def pass (w : BufferedWriter) (bytes : List UInt8) : Written :=
  if bytes.length < w.capacity then ({ w with buffer := w.buffer ++ bytes }, none)
  else
    let (sink, left) := w.sink.write bytes
    ({ w with sink }, shortfall left)

/-- The writer with bytes behind those of the buffer, which is emptied first if they do not
fit. -/
def send (w : BufferedWriter) (bytes : List UInt8) : Written :=
  if w.fits bytes then w.pass bytes
  else
    match w.flush with
    | (w, none) => w.pass bytes
    | (w, some e) => (w, some e)

/-- The writer with its retained text handed on; if that fails, all of it is retained. -/
def handOn (w : BufferedWriter) : Written :=
  match w.send w.retained with
  | (w, none) => ({ w with retained := [] }, none)
  | (w, some e) => (w, some e)

/-- The writer after a call. -/
def call (w : BufferedWriter) (c : Call) : Written :=
  match w.encoder.call w.options c with
  | .ok (encoder, added) => handOn { w with encoder, retained := w.retained ++ Utf8.encode added }
  | .error m => (w, some (.misuse m))

/-- The writer after calls one after another, up to the first that fails. -/
def callAll (w : BufferedWriter) : List Call → Written
  | [] => (w, none)
  | c :: cs =>
    match w.call c with
    | (w, none) => w.callAll cs
    | (w, some e) => (w, some e)

end BufferedWriter

end Columnar
