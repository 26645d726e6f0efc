import Columnar.Decimal

/-!
# The shortest decimal text of a real

A finite real is written with the fewest digits that read back to it; of two such
decimals the nearer one, and of two equally near ones the even one.  Whether a decimal
reads back is asked of the reader itself, `Decimal.toBinary64`.

The digits are laid out without an exponent while the point falls inside a window of
sixteen digits before it and four zeros behind it, and always with a fraction, so that
the text of a real is never the text of an integer.  Outside of that window an exponent is
written, and it is up to each format whether a positive one shows its sign.

## Main definitions

* `Binary64.shortest` — the decimal chosen for a nonzero finite magnitude.
* `ExponentStyle` — what a format decides about exponents.
* `Decimal.layout` — its digits, point and exponent.
* `Binary64.toText` — the text of a finite real.
* `RealLibrary` — a library that spells reals, of which the shortest texts are one.
-/

namespace Columnar

namespace Binary64

/-- The power of ten of the first digit of a nonzero finite magnitude. -/
def leadingPower (x : Binary64) : Int :=
  ((Nat.toDigits 10 (x.units * powerOfTen 340 / unitsOfOne)).length : Int) - 341

/-- The magnitude counted in multiples of `10 ^ k`, as an exact quotient. -/
def inPowersOfTen (x : Binary64) (k : Int) : Nat × Nat :=
  match k with
  | .ofNat e => (x.units, unitsOfOne * powerOfTen e)
  | .negSucc e => (x.units * powerOfTen (e + 1), unitsOfOne)

/-- Whether a decimal reads back to the magnitude of `x`. -/
def readsBack (x : Binary64) (d : Decimal) : Bool := (d.toBinary64 false).magnitude == x.magnitude

/-- The decimal of the grid `10 ^ k` that stands for `x`: one of the two neighbours of `x`
on the grid that reads back, the nearer one if both do. -/
def onGrid? (x : Binary64) (k : Int) : Option Decimal :=
  let (num, den) := x.inPowersOfTen k
  let below : Decimal := ⟨num / den, k⟩
  let above : Decimal := ⟨num / den + 1, k⟩
  match x.readsBack below, x.readsBack above with
  | true, true => some ⟨nearestEven num den, k⟩
  | true, false => some below
  | false, true => some above
  | false, false => none

/-- A nonzero finite magnitude in full: every binary fraction is a decimal one. -/
def exactDecimal (x : Binary64) : Decimal := ⟨x.units * Nat.pow 5 1074, -1074⟩

/-- The decimal with the fewest digits that reads back to the magnitude of `x`. -/
def shortest (x : Binary64) : Decimal :=
  let lead := x.leadingPower
  ((List.range 17).findSome? fun (n : Nat) => x.onGrid? (lead - n)).getD x.exactDecimal

end Binary64

/-- What a format decides about the exponents of its reals. -/
structure ExponentStyle where
  /-- Whether a positive exponent shows its sign. -/
  plusSign : Bool
  deriving DecidableEq, Repr

/-- The characters of an exponent. -/
def ExponentStyle.chars (style : ExponentStyle) (power : Int) : List Char :=
  if power < 0 then 'e' :: '-' :: Nat.toDigits 10 power.natAbs
  else if style.plusSign then 'e' :: '+' :: Nat.toDigits 10 power.natAbs
  else 'e' :: Nat.toDigits 10 power.natAbs

namespace Decimal

/-- The same value without trailing zero digits; `fuel` bounds their number. -/
def dropZeros : Nat → Decimal → Decimal
  | 0, d => d
  | fuel + 1, d =>
    if d.digits % 10 = 0 ∧ d.digits ≠ 0 then
      dropZeros fuel ⟨d.digits / 10, d.exponent + 1⟩
    else d

/-- The characters of a nonzero decimal: positional while the point falls no more than
sixteen digits after the first digit and no more than four zeros before it, otherwise one
digit, the others behind a point, and an exponent. -/
def layout (style : ExponentStyle) (d : Decimal) : List Char :=
  let ds := Nat.toDigits 10 d.digits
  let point : Int := ds.length + d.exponent
  if 0 ≤ d.exponent ∧ point ≤ 16 then
    ds ++ List.replicate d.exponent.toNat '0' ++ ['.', '0']
  else if 0 < point ∧ point ≤ 16 then
    ds.take point.toNat ++ '.' :: ds.drop point.toNat
  else if -5 < point ∧ point ≤ 0 then
    '0' :: '.' :: List.replicate (-point).toNat '0' ++ ds
  else
    let power := style.chars (point - 1)
    match ds with
    | [] => []
    | [c] => c :: power
    | c :: rest => c :: '.' :: rest ++ power

end Decimal

namespace Binary64

/-- The shortest text of a finite real that reads back to it. -/
def toText (style : ExponentStyle) (x : Binary64) : String :=
  let body := if x.isZero then ['0', '.', '0'] else (x.shortest.dropZeros 400).layout style
  String.ofList (if x.negative then '-' :: body else body)

end Binary64

/-- A library that spells reals. -/
structure RealLibrary where
  /-- The text of a finite real. -/
  text : Binary64 → String

/-- The library of the shortest texts, with exponents of one style. -/
def RealLibrary.shortest (style : ExponentStyle) : RealLibrary := ⟨Binary64.toText style⟩

end Columnar
