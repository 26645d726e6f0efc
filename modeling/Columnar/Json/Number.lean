import Columnar.Decimal.Reading
import Columnar.Json.Token

/-!
# Numbers of JSON text

A number without fraction and exponent is an integer if 64 bits hold it.  Any other number
is the nearest real.

## Main definitions

* `Number` — what a number stands for.
* `Number.ofLiteral?` — the number of a whole literal.
* `Number.parse` — the number of some bytes of the input.
-/

namespace Columnar

/-- What a number stands for. -/
inductive Number
  /-- An integer of 64 bits. -/
  | int (n : Int64)
  /-- An integer that 64 bits do not hold, as the nearest real. -/
  | large (x : Binary64)
  /-- A number with a fraction or an exponent. -/
  | real (x : Binary64)
  deriving DecidableEq

namespace Number

/-- The number of a whole literal that looks as `shape` says. -/
def ofLiteral? (shape : NumberShape) (literal : List UInt8) : Option Number :=
  match shape with
  | .real => (readReal? literal).map real
  | .unsigned | .signed =>
    match readInt64? literal with
    | some n => some (int n)
    | none => (readReal? literal).map large

/-- The character shown for bytes that are no number: their first, or a question mark. -/
def shownChar : List UInt8 → Char
  | [] => '?'
  | b :: _ => charOfByte b

/-- The number that the first `length` of some bytes are; these start at `offset` in the
input. -/
def parse (shape : NumberShape) (offset length : Nat) (bytes : List UInt8) :
    Except ScanError Number :=
  match ofLiteral? shape (bytes.take length) with
  | some x => .ok x
  | none => .error ⟨.unexpectedChar (shownChar bytes), ⟨offset, length⟩⟩

end Number

end Columnar
