import Columnar.Text.Visible

/-!
# Quoted text in messages

Messages quote characters and texts so that every character of them can be seen: the
quote itself, the backslash and a few controls have short escapes, and any other character
that is not visible is written by its code in braces.

## Main definitions

* `hexDigits` — a number in lower-case hexadecimal.
* `Quoted.char`, `Quoted.string`, `Quoted.strings` — a character in single quotes, a text
  in double quotes, and a list of texts in brackets.
-/

namespace Columnar

/-- A number in lower-case hexadecimal, without leading zeros. -/
def hexDigits (n : Nat) : List Char := Nat.toDigits 16 n

/-- A number in lower-case hexadecimal, filled with zeros up to a width. -/
def hexPadded (width n : Nat) : List Char :=
  let ds := hexDigits n
  List.replicate (width - ds.length) '0' ++ ds

namespace Quoted

/-- A character between quotes of the given kind. -/
def escape (quote : Char) (c : Char) : List Char :=
  if c = quote ∨ c = '\\' then ['\\', c]
  else if c = '\x00' then ['\\', '0']
  else if c = '\t' then ['\\', 't']
  else if c = '\r' then ['\\', 'r']
  else if c = '\n' then ['\\', 'n']
  else if Visible.isVisible c then [c]
  else ['\\', 'u', '\x7b'] ++ hexDigits c.toNat ++ ['\x7d']

/-- A character in single quotes. -/
def char (c : Char) : String := String.ofList ('\'' :: escape '\'' c ++ ['\''])

/-- A text in double quotes. -/
def string (s : String) : String := String.ofList ('"' :: s.toList.flatMap (escape '"') ++ ['"'])

/-- Texts in double quotes, between brackets and with commas. -/
def strings (ss : List String) : String := "[" ++ ", ".intercalate (ss.map string) ++ "]"

end Quoted

end Columnar
