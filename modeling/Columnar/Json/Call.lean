import Columnar.Decimal.Fixed
import Columnar.Decimal.Shortest
import Columnar.Text.Escaped

/-!
# Calls that write JSON text

A call writes a value or one edge of a container.  It comes down to a few steps, of which
each is either a whole value with its text or such an edge, so the rules of nesting only
have to be told for steps.

How reals are spelled is left to a library, unless the number of their decimals is limited;
either way they have a point or an exponent, so that they never look like integers.  Those
that are not finite have no JSON text of their own; they are written as strings if there
are strings for them, and are missing otherwise.

## Main definitions

* `WriteOptions` — the settings.
* `Call` — what can be written.
* `Step`, `Call.steps` — the steps of a call.
-/

namespace Columnar

/-- The settings for writing text. -/
structure WriteOptions where
  /-- Whether items and fields stand on lines of their own. -/
  pretty : Bool := false
  /-- What stands before each line, once for every open container. -/
  indent : String := "  "
  /-- The largest number of decimals of a real, if there is one. -/
  maxDecimals? : Option Nat := none
  /-- The string written for not-a-number. -/
  nan? : Option String := none
  /-- The string written for infinity. -/
  infinity? : Option String := none
  /-- The string written for negative infinity. -/
  minusInfinity? : Option String := none
  /-- The key of the real part of a complex number. -/
  complexReal? : Option String := none
  /-- The key of the imaginary part of a complex number. -/
  complexImag? : Option String := none
  /-- The library that spells a finite real with all its digits: positive exponents are written
  without a sign, unless set otherwise. -/
  reals : RealLibrary := .shortest ⟨false⟩

/-- What can be written. -/
inductive Call
  /-- The missing value. -/
  | null
  /-- A truth value. -/
  | bool (b : Bool)
  /-- An integer. -/
  | int (n : Int64)
  /-- A real. -/
  | real (x : Binary64)
  /-- A complex number, as a list of its parts or a record of them. -/
  | complex (z : Complex)
  /-- A string. -/
  | string (s : String)
  /-- The start of a list. -/
  | beginList
  /-- The end of the innermost list. -/
  | endList
  /-- The start of a record. -/
  | beginRecord
  /-- The key of the next value of the innermost record. -/
  | field (key : String)
  /-- The end of the innermost record. -/
  | endRecord
  /-- A value that is text already. -/
  | json (fragment : String)
  deriving DecidableEq

/-- What a call comes down to. -/
inductive Step
  /-- A whole value, the name of the call that writes it, and its text. -/
  | value (name : String) (text : List Char)
  /-- The start of a list. -/
  | beginList
  /-- The end of the innermost list. -/
  | endList
  /-- The start of a record. -/
  | beginRecord
  /-- The key of the next value of the innermost record. -/
  | field (key : String)
  /-- The end of the innermost record. -/
  | endRecord
  deriving DecidableEq, Repr

/-! ### The steps of a call -/

/-- A string between its quotes. -/
def quotedText (s : String) : List Char := Escaped.string Escaped.isControlOrDelete s

/-- The step of a string. -/
def Step.ofString (s : String) : Step := .value "string" (quotedText s)

/-- The step of the missing value. -/
def Step.null : Step := .value "null" ['n', 'u', 'l', 'l']

namespace WriteOptions

/-- The string written for a real that is not finite. -/
def spelling? (o : WriteOptions) (x : Binary64) : Option String :=
  if x.isNaN then o.nan? else if x.negative then o.minusInfinity? else o.infinity?

/-- The text of a finite real: with a limited number of decimals, or as the library spells it. -/
def realText (o : WriteOptions) (x : Binary64) : String :=
  match o.maxDecimals? with
  | some decimals => x.toFixedText decimals
  | none => o.reals.text x

/-- The step of a real: one that is not finite is written as a string or is missing. -/
def realStep (o : WriteOptions) (x : Binary64) : Step :=
  if x.isFinite then .value "real" (o.realText x).toList
  else
    match o.spelling? x with
    | some s => .ofString s
    | none => .null

/-- The steps of a complex number: a record if both parts have keys, otherwise a list. -/
def complexSteps (o : WriteOptions) (z : Complex) : List Step :=
  match o.complexReal?, o.complexImag? with
  | some re, some im =>
    [.beginRecord, .field re, o.realStep z.re, .field im, o.realStep z.im, .endRecord]
  | _, _ => [.beginList, o.realStep z.re, o.realStep z.im, .endList]

end WriteOptions

/-- The steps of a call. -/
def Call.steps (o : WriteOptions) : Call → List Step
  | null => [.null]
  | bool b => [.value "boolean" (if b then "true" else "false").toList]
  | int n => [.value "integer" (toString n.toInt).toList]
  | real x => [o.realStep x]
  | complex z => o.complexSteps z
  | string s => [.ofString s]
  | beginList => [.beginList]
  | endList => [.endList]
  | beginRecord => [.beginRecord]
  | field key => [.field key]
  | endRecord => [.endRecord]
  | json fragment => [.value "json" fragment.toList]

end Columnar
