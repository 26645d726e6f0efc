import Columnar.Text.Quoted

/-!
# Tokens of JSON text

A token is one mark, word, string or number of a JSON text, with the bytes that it covers.
The bytes of a string are kept as they stand between the quotes, and those of a number as
they stand; both are decoded later, by whoever needs them.

## Main definitions

* `Span` — a run of bytes of the input.
* `NumberShape`, `Token`, `Located` — tokens, and tokens with their place.
* `ScanCause`, `ScanError` — why a text has no further token, with words.
-/

namespace Columnar

/-- A run of bytes of the input. -/
structure Span where
  /-- The place of the first byte, from the start of the input. -/
  offset : Nat
  /-- The number of bytes. -/
  length : Nat
  deriving DecidableEq, Repr, Inhabited

/-- What a number looks like. -/
inductive NumberShape
  /-- An integer without a sign. -/
  | unsigned
  /-- An integer with a minus sign. -/
  | signed
  /-- A number with a fraction or an exponent. -/
  | real
  deriving DecidableEq, Repr, Inhabited

/-- A token. -/
inductive Token
  /-- An opening brace. -/
  | objectStart
  /-- A closing brace. -/
  | objectEnd
  /-- An opening bracket. -/
  | arrayStart
  /-- A closing bracket. -/
  | arrayEnd
  /-- A colon. -/
  | colon
  /-- A comma. -/
  | comma
  /-- The word `null`. -/
  | null
  /-- One of the words `true` and `false`. -/
  | bool (b : Bool)
  /-- A string: the bytes between its quotes, and whether a backslash is among them. -/
  | string (content : List UInt8) (hasEscapes : Bool)
  /-- A number: its bytes, and what it looks like. -/
  | number (literal : List UInt8) (shape : NumberShape)
  deriving DecidableEq, Repr

namespace Token

/-- A token in messages. -/
def describe : Token → String
  | objectStart => "'\x7b'"
  | objectEnd => "'\x7d'"
  | arrayStart => "'['"
  | arrayEnd => "']'"
  | colon => "':'"
  | comma => "','"
  | null => "null"
  | bool true => "true"
  | bool false => "false"
  | string _ _ => "string"
  | number _ _ => "number"

/-- The end of the input in messages. -/
def describeEnd : String := "end of input"

/-- Whether a token opens an object or an array. -/
def isOpening : Token → Bool
  | objectStart | arrayStart => true
  | _ => false

end Token

/-- A token and its place. -/
structure Located where
  /-- The token. -/
  token : Token
  /-- The bytes it covers. -/
  span : Span
  deriving DecidableEq, Repr

/-- Where an input can end too early. -/
inductive ScanContext
  /-- Between the quotes of a string. -/
  | string
  /-- Inside a number. -/
  | number
  /-- Inside a word. -/
  | literal
  /-- Behind a backslash. -/
  | escape
  deriving DecidableEq, Repr

/-- A place in words. -/
def ScanContext.words : ScanContext → String
  | string => "in string"
  | number => "in number"
  | literal => "in literal"
  | escape => "in escape sequence"

/-- Why there is no token. -/
inductive ScanCause
  /-- A character that cannot stand there. -/
  | unexpectedChar (c : Char)
  /-- The input ends. -/
  | unexpectedEof (context : ScanContext)
  /-- A control in a string that is not escaped. -/
  | controlCharacter (c : Char)
  /-- Bytes in a string that are not UTF-8. -/
  | invalidUtf8
  /-- A backslash before a character that has no escape. -/
  | invalidEscape (c : Char)
  /-- An escape by code without four digits, or with a code that is no character. -/
  | invalidUnicodeEscape
  deriving DecidableEq, Repr

namespace ScanCause

/-- The name of a cause. -/
def name : ScanCause → String
  | unexpectedChar _ => "UnexpectedChar"
  | unexpectedEof _ => "UnexpectedEof"
  | controlCharacter _ => "ControlCharacter"
  | invalidUtf8 => "InvalidUtf8"
  | invalidEscape _ => "InvalidEscape"
  | invalidUnicodeEscape => "InvalidUnicodeEscape"

/-- A cause in words. -/
def message : ScanCause → String
  | unexpectedChar c => "unexpected character " ++ Quoted.char c
  | unexpectedEof context => "unexpected end of input " ++ context.words
  | controlCharacter c => "unescaped control character " ++ Quoted.char c ++ " in string"
  | invalidUtf8 => "invalid UTF-8 in string"
  | invalidEscape c => "invalid escape sequence '\\" ++ c.toString ++ "'"
  | invalidUnicodeEscape => "invalid unicode escape"

end ScanCause

/-- A cause and its place. -/
structure ScanError where
  /-- The cause. -/
  cause : ScanCause
  /-- The bytes at fault. -/
  span : Span
  deriving DecidableEq, Repr

/-- The character that a single byte is shown as. -/
def charOfByte (b : UInt8) : Char := Char.ofNat b.toNat

end Columnar
