/-!
# Binary64 numbers

A real of a column is a 64-bit word: a sign bit, eleven exponent bits and fifty-two
fraction bits.  The word itself is the value here, so that equality is equality of
words and every operation is arithmetic on natural numbers.

A finite magnitude is a whole number of *units* of `2 ^ (-1074)`, the smallest
positive magnitude, so an exact quotient of units is two natural numbers and no
rational arithmetic is needed.

## Main definitions

* `Binary64` — the word.
* `Binary64.units` — the magnitude of a finite number, counted in units.
* `nearestEven a d` — the natural number nearest to `a / d`, a tie going to the even one.
* `Binary64.magnitudeOfUnits a d` — the magnitude bits nearest to `a / d` units.
* `Binary64.ofRatio`, `Binary64.ofInt` — numbers nearest to a quotient and to an integer.
* `Binary64.mul`, `Binary64.div` — the exact product and quotient, rounded.
* `Binary64.ceilSaturating` — the next whole number up, held inside a range of sizes.
-/

namespace Columnar

/-- A power of two. -/
def powerOfTwo (n : Nat) : Nat := Nat.pow 2 n

@[simp] theorem powerOfTwo_zero : powerOfTwo 0 = 1 := rfl

theorem powerOfTwo_succ (n : Nat) : powerOfTwo (n + 1) = powerOfTwo n * 2 := rfl

theorem powerOfTwo_pos (n : Nat) : 0 < powerOfTwo n := by
  induction n with
  | zero => decide
  | succ n ih => rw [powerOfTwo_succ]; omega

/-- The natural number nearest to `a / d`; a tie goes to the even one. -/
def nearestEven (a d : Nat) : Nat :=
  let q := a / d
  let r := a % d
  if 2 * r < d then q
  else if d < 2 * r then q + 1
  else if q % 2 = 0 then q else q + 1

/-- A binary floating point number of 64 bits, as its word. -/
structure Binary64 where
  /-- Sign, exponent and fraction, from the highest bit down. -/
  bits : UInt64
  deriving DecidableEq, Repr, Inhabited

namespace Binary64

/-! ### Parts of the word -/

/-- The magnitude bits of infinity: every exponent bit set, no fraction bit. -/
def infinityMagnitude : Nat := 0x7ff0000000000000

/-- The word in which only the sign bit is set. -/
def signBit : Nat := 0x8000000000000000

/-- The word in which only the lowest bit of the exponent is set, the one above the fraction. -/
def exponentBit : Nat := 0x0010000000000000

/-- Every bit but the sign. -/
def magnitude (x : Binary64) : Nat := x.bits.toNat % signBit

/-- Whether the sign bit is set. -/
def negative (x : Binary64) : Bool := decide (signBit ≤ x.bits.toNat)

/-- Not a number: the exponent is full and some fraction bit is set. -/
def isNaN (x : Binary64) : Bool := decide (infinityMagnitude < x.magnitude)

/-- One of the two infinities. -/
def isInfinite (x : Binary64) : Bool := x.magnitude == infinityMagnitude

/-- Neither infinite nor not a number. -/
def isFinite (x : Binary64) : Bool := decide (x.magnitude < infinityMagnitude)

/-- One of the two zeros. -/
def isZero (x : Binary64) : Bool := x.magnitude == 0

/-- The number with the given sign and magnitude bits. -/
def ofMagnitude (negative : Bool) (magnitude : Nat) : Binary64 :=
  ⟨UInt64.ofNat (magnitude + if negative then signBit else 0)⟩

/-- Zero with its sign bit clear. -/
def zero : Binary64 := ⟨0⟩

/-- One. -/
def one : Binary64 := ⟨0x3ff0000000000000⟩

/-- Two. -/
def two : Binary64 := ⟨0x4000000000000000⟩

/-- Infinity with the given sign. -/
def infinity (negative : Bool) : Binary64 := ofMagnitude negative infinityMagnitude

/-- The quiet not-a-number with its sign bit clear. -/
def nan : Binary64 := ⟨0x7ff8000000000000⟩

/-- The same number with the other sign. -/
def neg (x : Binary64) : Binary64 := ofMagnitude (!x.negative) x.magnitude

/-- The number with the other sign is written with a minus. -/
instance : Neg Binary64 := ⟨neg⟩

/-! ### Magnitudes in units -/

/-- The units, `2 ^ (-1074)` each, of the number one. -/
def unitsOfOne : Nat := powerOfTwo 1074

/-- The units of a finite magnitude. -/
def unitsOfMagnitude (m : Nat) : Nat :=
  if m < exponentBit then m
  else (exponentBit + m % exponentBit) * powerOfTwo (m / exponentBit - 1)

/-- The magnitude of a finite number, in units. -/
def units (x : Binary64) : Nat := unitsOfMagnitude x.magnitude

/-- The least `p` for which `a / d` lies below `2 ^ (p + 53)`: the exponent, above that of
the unit, of the last place of `a / d`. -/
def lastPlace (a d : Nat) : Nat :=
  let p := a.log2 - (d.log2 + 52)
  if 0 < p ∧ a < d * powerOfTwo (p + 52) then p - 1 else p

/-- The magnitude bits nearest to `a / d` units, a tie going to the even magnitude.

With `p` the last place of `a / d`, the significand is `a / (d * 2 ^ p)` rounded and the
word is `p * 2 ^ 52` more: a significand that rounds up to `2 ^ 53` carries into the
exponent by itself, and a word at or past infinity is infinity. -/
def magnitudeOfUnits (a d : Nat) : Nat :=
  let p := lastPlace a d
  min (p * exponentBit + nearestEven a (d * powerOfTwo p)) infinityMagnitude

/-- The number nearest to `num / den`, with the given sign; `den` is not zero. -/
def ofRatio (negative : Bool) (num den : Nat) : Binary64 :=
  ofMagnitude negative (magnitudeOfUnits (num * unitsOfOne) den)

/-- The number nearest to a natural number. -/
def ofNat (n : Nat) : Binary64 := ofRatio false n 1

/-- The number nearest to an integer; zero has its sign bit clear. -/
def ofInt (n : Int) : Binary64 := ofRatio (decide (n < 0)) n.natAbs 1

/-! ### Order and arithmetic -/

/-- A key by which numbers other than not-a-number are ordered; the two zeros share it. -/
def orderKey (x : Binary64) : Int := if x.negative then -x.magnitude else x.magnitude

/-- Numeric "less than", never true of not-a-number. -/
def lt (x y : Binary64) : Bool := !x.isNaN && !y.isNaN && decide (x.orderKey < y.orderKey)

/-- Numeric equality: the two zeros are equal, not-a-number equals nothing. -/
def numEq (x y : Binary64) : Bool := !x.isNaN && !y.isNaN && x.orderKey == y.orderKey

/-- The exact product, rounded. -/
def mul (x y : Binary64) : Binary64 :=
  let sign := x.negative != y.negative
  if x.isNaN || y.isNaN then nan
  else if x.isInfinite || y.isInfinite then
    if x.isZero || y.isZero then nan else infinity sign
  else ofMagnitude sign (magnitudeOfUnits (x.units * y.units) unitsOfOne)

/-- The exact quotient, rounded. -/
def div (x y : Binary64) : Binary64 :=
  let sign := x.negative != y.negative
  if x.isNaN || y.isNaN then nan
  else if x.isInfinite then if y.isInfinite then nan else infinity sign
  else if y.isInfinite then ofMagnitude sign 0
  else if y.isZero then if x.isZero then nan else infinity sign
  else ofMagnitude sign (magnitudeOfUnits (x.units * unitsOfOne) y.units)

/-- The least whole number at or above `x`, brought into the range from zero to `top`;
not-a-number gives zero. -/
def ceilSaturating (top : Nat) (x : Binary64) : Nat :=
  if x.isNaN || x.negative then 0
  else if x.isInfinite then top
  else min ((x.units + (unitsOfOne - 1)) / unitsOfOne) top

/-! ### The word as digits -/

/-- The eight bytes of the word, lowest first. -/
def leBytes (x : Binary64) : List UInt8 :=
  (List.range 8).map fun i => UInt8.ofNat (x.bits.toNat / powerOfTwo (8 * i))

/-- One number per word: every not-a-number is sent to `nan`. -/
def canonical (x : Binary64) : Binary64 := if x.isNaN then nan else x

@[simp] theorem canonical_nan : canonical nan = nan := by decide

end Binary64

/-- A complex number in Cartesian form. -/
structure Complex where
  /-- The real part. -/
  re : Binary64
  /-- The imaginary part. -/
  im : Binary64
  deriving DecidableEq, Repr, Inhabited

/-- A real as a complex number: the imaginary part is zero. -/
def Complex.ofReal (x : Binary64) : Complex := ⟨x, .zero⟩

end Columnar
