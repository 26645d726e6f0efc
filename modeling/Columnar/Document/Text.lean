import Columnar.Document
import Columnar.Decimal.Shortest
import Columnar.Text.Escaped

/-!
# Documents as text

The text of a document has no blanks.  Whole numbers are written in full, reals as a library
spells them, and strings with the controls below the blank hidden.

## Main definitions

* `Document.chars` — the characters of a document.
* `Document.text` — the same as a text.
-/

namespace Columnar.Document

/-- The characters of a whole number. -/
def intChars (n : Int) : List Char :=
  if n < 0 then '-' :: Nat.toDigits 10 n.natAbs else Nat.toDigits 10 n.natAbs

/-- The characters of a string document. -/
def stringChars (s : String) : List Char := Escaped.string Escaped.isControl s

section

variable (reals : RealLibrary)

mutual

/-- The characters of a document. -/
def chars : Document → List Char
  | .null => ['n', 'u', 'l', 'l']
  | .bool true => ['t', 'r', 'u', 'e']
  | .bool false => ['f', 'a', 'l', 's', 'e']
  | .int n => intChars n
  | .real x => (reals.text x).toList
  | .string s => stringChars s
  | .array items => '[' :: itemChars items ++ [']']
  | .object members => '\x7b' :: memberChars members ++ ['\x7d']

/-- The items of an array, with commas between them. -/
def itemChars : List Document → List Char
  | [] => []
  | [x] => chars x
  | x :: xs => chars x ++ ',' :: itemChars xs

/-- The members of an object, with commas between them. -/
def memberChars : List (String × Document) → List Char
  | [] => []
  | [(k, v)] => stringChars k ++ ':' :: chars v
  | (k, v) :: rest => stringChars k ++ ':' :: chars v ++ ',' :: memberChars rest

end

end

/-- The text of a document.  Unless set otherwise, every exponent shows its sign. -/
def text (d : Document) (reals : RealLibrary := .shortest ⟨true⟩) : String :=
  String.ofList (d.chars reals)

end Columnar.Document
