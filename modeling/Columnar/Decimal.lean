import Columnar.Binary64

/-!
# Decimal numbers and their nearest binary64

A decimal is a whole number of some power of ten.  Reading one as a binary64 rounds
its exact value once, to the nearest number, a tie going to the even one.

## Main definitions

* `Decimal` — digits and a power of ten.
* `Decimal.toBinary64` — the nearest number.
* `digitsValue` — the value of a run of decimal digits.
* `powerOfTen` — powers of ten.
-/

namespace Columnar

/-- Whether a byte is one of the ten digits. -/
def isDigitByte (b : UInt8) : Bool := 0x30 ≤ b && b ≤ 0x39

/-- The value of a run of digit bytes, read after the digits of `start`. -/
def digitsValue (start : Nat) (ds : List UInt8) : Nat :=
  ds.foldl (fun acc b => 10 * acc + (b.toNat - 0x30)) start

@[simp] theorem digitsValue_nil (start : Nat) : digitsValue start [] = start := rfl

@[simp] theorem digitsValue_cons (start : Nat) (b : UInt8) (ds : List UInt8) :
    digitsValue start (b :: ds) = digitsValue (10 * start + (b.toNat - 0x30)) ds := by
  simp only [digitsValue, List.foldl_cons]

/-- A power of ten. -/
def powerOfTen (n : Nat) : Nat := Nat.pow 10 n

@[simp] theorem powerOfTen_zero : powerOfTen 0 = 1 := rfl

theorem powerOfTen_succ (n : Nat) : powerOfTen (n + 1) = powerOfTen n * 10 := rfl

/-- A nonnegative decimal number: `digits * 10 ^ exponent`. -/
structure Decimal where
  /-- The digits, as one whole number. -/
  digits : Nat
  /-- The power of ten of the last digit. -/
  exponent : Int
  deriving DecidableEq, Repr, Inhabited

namespace Decimal

/-- The number nearest to a decimal, with the given sign.

A power past `10 ^ 310` is infinite and a value below `2 ^ (-1075)` is zero, whatever the
digits; both are settled before a large power of ten is built. -/
def toBinary64 (negative : Bool) (d : Decimal) : Binary64 :=
  if d.digits = 0 then .ofMagnitude negative 0
  else if 310 < d.exponent then .infinity negative
  else if (d.digits.log2 + 1 : Int) + 3 * d.exponent < -1075 then .ofMagnitude negative 0
  else match d.exponent with
    | .ofNat e => .ofRatio negative (d.digits * powerOfTen e) 1
    | .negSucc e => .ofRatio negative d.digits (powerOfTen (e + 1))

@[simp] theorem toBinary64_zero (negative : Bool) (e : Int) :
    toBinary64 negative ⟨0, e⟩ = .ofMagnitude negative 0 := by simp [toBinary64]

end Decimal

end Columnar
