import Columnar.Decimal

/-!
# Reading numbers from text

An integer is an optional sign and at least one digit, and has to fit in 64 bits.  A real
is an optional sign and either a decimal — digits with an optional point among or around
them, then an optional exponent — or one of the words for infinity and not-a-number,
in any case.

## Main definitions

* `splitSign` — the sign and what follows it.
* `readInt64?` — a whole text as a 64-bit integer.
* `readDecimal?` — a whole unsigned text as a decimal.
* `readReal?` — a whole text as a real.
-/

namespace Columnar

/-- Whether the text starts with a minus sign, and the text behind its sign, if any. -/
def splitSign : List UInt8 → Bool × List UInt8
  | 0x2d :: rest => (true, rest)
  | 0x2b :: rest => (false, rest)
  | text => (false, text)

/-- An integer from sign and magnitude. -/
def signedInt (negative : Bool) (n : Nat) : Int := if negative then -n else n

/-- The integer of a whole text, whatever its size. -/
def readInt? (text : List UInt8) : Option Int :=
  let (negative, body) := splitSign text
  if body ≠ [] ∧ body.all isDigitByte then some (signedInt negative (digitsValue 0 body))
  else none

/-- Whether an integer is one of the `2 ^ 64` signed words. -/
def fitsInt64 (n : Int) : Bool := decide (-0x8000000000000000 ≤ n ∧ n < 0x8000000000000000)

/-- The 64-bit integer of a whole text. -/
def readInt64? (text : List UInt8) : Option Int64 :=
  match readInt? text with
  | some n => if fitsInt64 n then some (Int64.ofInt n) else none
  | none => none

/-- The exponent of a decimal: nothing, or `e` with a signed run of digits. -/
def readExponent? : List UInt8 → Option Int
  | [] => some 0
  | b :: rest => if b = 0x65 ∨ b = 0x45 then readInt? rest else none

/-- The decimal of a whole unsigned text. -/
def readDecimal? (text : List UInt8) : Option Decimal :=
  let whole := text.takeWhile isDigitByte
  let afterWhole := text.dropWhile isDigitByte
  let (part, tail) := match afterWhole with
    | 0x2e :: rest => (rest.takeWhile isDigitByte, rest.dropWhile isDigitByte)
    | rest => ([], rest)
  if whole = [] ∧ part = [] then none
  else (readExponent? tail).map fun e => ⟨digitsValue 0 (whole ++ part), e - part.length⟩

/-- A letter in lower case; other bytes as they are. -/
def lowerByte (b : UInt8) : UInt8 := if 0x41 ≤ b && b ≤ 0x5a then b + 0x20 else b

/-- The real a word stands for: `inf`, `infinity` or `nan`, in any case. -/
def readSpecial? (negative : Bool) (text : List UInt8) : Option Binary64 :=
  let word := text.map lowerByte
  if word = [0x69, 0x6e, 0x66] ∨ word = [0x69, 0x6e, 0x66, 0x69, 0x6e, 0x69, 0x74, 0x79] then
    some (.infinity negative)
  else if word = [0x6e, 0x61, 0x6e] then some .nan
  else none

/-- The real of a whole text. -/
def readReal? (text : List UInt8) : Option Binary64 :=
  let (negative, body) := splitSign text
  match readDecimal? body with
  | some d => some (d.toBinary64 negative)
  | none => readSpecial? negative body

end Columnar
