import Columnar.Text.Quoted

/-!
# Escapes of JSON strings

A JSON string is written between double quotes.  The quote and the backslash are escaped,
five controls have short escapes, and further characters that a writer wants hidden are
written by the four hexadecimal digits of their code.

A character past U+FFFF has a code of more than four digits, and is escaped by the codes of
its two surrogates.

## Main definitions

* `Escaped.char` — one character between the quotes.
* `Escaped.string` — a whole string, quotes included.
* `Escaped.isControl`, `Escaped.isControlOrDelete` — which characters are hidden.
* `Escaped.short?`, `Escaped.hexFour?`, `Escaped.pairChar` — what escapes stand for.
-/

namespace Columnar.Escaped

/-- A character below the blank. -/
def isControl (c : Char) : Bool := decide (c.toNat < 0x20)

/-- A character below the blank, or the delete character. -/
def isControlOrDelete (c : Char) : Bool := decide (c.toNat < 0x20 ∨ c.toNat = 0x7f)

/-- A character as it stands between the quotes; `hidden` ones are written by code unless
they have a short escape. -/
def char (hidden : Char → Bool) (c : Char) : List Char :=
  if c = '"' then ['\\', '"']
  else if c = '\\' then ['\\', '\\']
  else if c = '\n' then ['\\', 'n']
  else if c = '\r' then ['\\', 'r']
  else if c = '\t' then ['\\', 't']
  else if c = '\x08' then ['\\', 'b']
  else if c = '\x0c' then ['\\', 'f']
  else if hidden c then '\\' :: 'u' :: hexPadded 4 c.toNat
  else [c]

/-- A whole string, between its quotes. -/
def string (hidden : Char → Bool) (s : String) : List Char :=
  '"' :: s.toList.flatMap (char hidden) ++ ['"']

/-! ### What escapes stand for -/

/-- The character that a short escape stands for. -/
def short? (c : Char) : Option Char :=
  if c = '"' ∨ c = '\\' ∨ c = '/' then some c
  else if c = 'b' then some '\x08'
  else if c = 'f' then some '\x0c'
  else if c = 'n' then some '\n'
  else if c = 'r' then some '\r'
  else if c = 't' then some '\t'
  else none

/-- The value of a hexadecimal digit. -/
def hexDigit? (c : Char) : Option Nat :=
  if '0' ≤ c ∧ c ≤ '9' then some (c.toNat - 48)
  else if 'a' ≤ c ∧ c ≤ 'f' then some (c.toNat - 87)
  else if 'A' ≤ c ∧ c ≤ 'F' then some (c.toNat - 55)
  else none

/-- The value of four hexadecimal digits. -/
def hexFour? (a b c d : Char) : Option Nat := do
  let a ← hexDigit? a
  let b ← hexDigit? b
  let c ← hexDigit? c
  let d ← hexDigit? d
  return ((a * 16 + b) * 16 + c) * 16 + d

/-- Whether a code is the first of a pair of surrogates. -/
def isHighSurrogate (n : Nat) : Bool := decide (0xd800 ≤ n ∧ n < 0xdc00)

/-- Whether a code is the second of a pair of surrogates. -/
def isLowSurrogate (n : Nat) : Bool := decide (0xdc00 ≤ n ∧ n < 0xe000)

/-- The character of a pair of surrogates. -/
def pairChar (high low : Nat) : Char :=
  Char.ofNat (0x10000 + (high - 0xd800) * 0x400 + (low - 0xdc00))

end Columnar.Escaped
