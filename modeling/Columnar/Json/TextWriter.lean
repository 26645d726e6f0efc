import Columnar.Json.Encoder

/-!
# Writing a whole text

A text writer keeps all that its calls have added.

## Main definitions

* `TextWriter` — a text and its open containers.
* `TextWriter.call`, `TextWriter.callAll` — the writer after calls.
-/

namespace Columnar

/-- A writer that keeps the whole text. -/
structure TextWriter where
  /-- The settings. -/
  options : WriteOptions
  /-- The open containers. -/
  encoder : Encoder
  /-- The text so far. -/
  text : String

namespace TextWriter

/-- A writer without text. -/
def new (o : WriteOptions) : TextWriter := ⟨o, .start, ""⟩

/-- The writer after a call; a rejected call leaves it as it is. -/
def call (w : TextWriter) (c : Call) : Except Misuse TextWriter :=
  match w.encoder.call w.options c with
  | .ok (encoder, added) => .ok { w with encoder, text := w.text ++ String.ofList added }
  | .error m => .error m

/-- The writer after calls one after another; if one is rejected, none counts. -/
def callAll (w : TextWriter) : List Call → Except Misuse TextWriter
  | [] => .ok w
  | c :: cs =>
    match w.call c with
    | .ok w => w.callAll cs
    | .error m => .error m

end TextWriter

end Columnar
