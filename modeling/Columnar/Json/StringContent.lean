import Columnar.Json.Token
import Columnar.Text.Escaped
import Columnar.Text.Utf8

/-!
# Contents of JSON strings

The bytes between the quotes of a string are decoded in two steps: they have to be UTF-8,
and then each escape is replaced by the character that it stands for.  A character past
U+FFFF may be escaped as a pair of surrogates; a surrogate alone stands for nothing.

## Main definitions

* `StringContent.codeEscape?` — the character of an escape by code.
* `StringContent.escape` — the character of any escape.
* `StringContent.unescape` — characters with all escapes replaced.
* `StringContent.decode` — the text of the bytes between two quotes.
-/

namespace Columnar.StringContent

/-- The character of an escape by code and the number of characters it takes, from what
follows the `u`. -/
def codeEscape? : List Char → Option (Char × Nat)
  | a :: b :: c :: d :: rest =>
    match Escaped.hexFour? a b c d with
    | none => none
    | some n =>
      if Escaped.isHighSurrogate n then
        match rest with
        | '\\' :: 'u' :: a' :: b' :: c' :: d' :: _ =>
          match Escaped.hexFour? a' b' c' d' with
          | none => none
          | some m => if Escaped.isLowSurrogate m then some (Escaped.pairChar n m, 10) else none
        | _ => none
      else if Escaped.isLowSurrogate n then none
      else some (Char.ofNat n, 4)
  | _ => none

/-- The character of an escape and the number of characters it takes, from what follows the
backslash. -/
def escape : List Char → Except ScanCause (Char × Nat)
  | [] => .error (.unexpectedEof .escape)
  | c :: rest =>
    match Escaped.short? c with
    | some x => .ok (x, 1)
    | none =>
      if c = 'u' then
        match codeEscape? rest with
        | some (x, width) => .ok (x, width + 1)
        | none => .error .invalidUnicodeEscape
      else .error (.invalidEscape c)

/-- How many bytes are shown as faulty at an escape that stands for nothing, from what
follows the backslash. -/
def faultLength (cause : ScanCause) (behind : List Char) : Nat :=
  match cause with
  | .invalidEscape c => 1 + c.utf8Size
  | .invalidUnicodeEscape => min (Utf8.width behind) 12 + 1
  | _ => 1

/-- Characters with all escapes replaced; the first of them is at `offset` in the input.
The characters of an escape take one byte each. -/
def unescape (offset : Nat) : List Char → Except ScanError (List Char)
  | [] => .ok []
  | c :: rest =>
    if c = '\\' then
      match escape rest with
      | .ok (x, width) => (unescape (offset + 1 + width) (rest.drop width)).map (x :: ·)
      | .error cause => .error ⟨cause, ⟨offset, faultLength cause rest⟩⟩
    else (unescape (offset + c.utf8Size) rest).map (c :: ·)
termination_by cs => cs.length
decreasing_by
  · simp only [List.length_drop, List.length_cons]; omega
  · simp only [List.length_cons]; omega

/-- The text of the bytes between two quotes, of which the first is at `offset` in the
input.  Bytes without escapes are taken as they are. -/
def decode (offset : Nat) (content : List UInt8) (hasEscapes : Bool) : Except ScanError String :=
  match Utf8.decode? content with
  | none => .error ⟨.invalidUtf8, ⟨offset + Utf8.validLength content, 1⟩⟩
  | some cs => if hasEscapes then (unescape offset cs).map String.ofList else .ok (String.ofList cs)

@[simp] theorem unescape_nil (offset : Nat) : unescape offset [] = .ok [] := by rw [unescape]

theorem unescape_cons_of_ne {c : Char} (h : c ≠ '\\') (offset : Nat) (rest : List Char) :
    unescape offset (c :: rest) = (unescape (offset + c.utf8Size) rest).map (c :: ·) := by
  rw [unescape, if_neg h]

end Columnar.StringContent
