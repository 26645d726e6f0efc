import Columnar.Decimal

/-!
# Reals with a bounded number of decimals

A finite real is rounded from its exact value to a given number of decimals, a tie going
to the even last digit.  Zeros at the end of the fraction are dropped, down to a single
`.0`, so that a whole number still shows a fraction.

## Main definitions

* `Binary64.roundedTo` — the rounded value, counted in units of the last decimal.
* `fractionText` — the fraction with its trailing zeros dropped.
* `Binary64.toFixedText` — the text.
-/

namespace Columnar

namespace Binary64

/-- A finite magnitude in multiples of `10 ^ (-decimals)`, to the nearest one. -/
def roundedTo (x : Binary64) (decimals : Nat) : Nat :=
  nearestEven (x.units * powerOfTen decimals) unitsOfOne

end Binary64

/-- A list without the zeros at its end. -/
def dropTrailingZeros (cs : List Char) : List Char :=
  (cs.reverse.dropWhile (· == '0')).reverse

/-- The digits behind the point: at least one, and no zero after it. -/
def fractionText (cs : List Char) : List Char :=
  match dropTrailingZeros cs with
  | [] => ['0']
  | ds => ds

namespace Binary64

/-- The text of a finite real rounded to `decimals` places.

No finite real has more than 1074 decimals, so any further places would be zeros, which
are dropped. -/
def toFixedText (x : Binary64) (decimals : Nat) : String :=
  let places := min decimals 1074
  let n := x.roundedTo places
  let whole := Nat.toDigits 10 (n / powerOfTen places)
  let part := Nat.toDigits 10 (n % powerOfTen places)
  let padded := if places = 0 then [] else List.replicate (places - part.length) '0' ++ part
  let body := whole ++ '.' :: fractionText padded
  String.ofList (if x.negative then '-' :: body else body)

end Binary64

end Columnar
