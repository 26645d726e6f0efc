import Columnar.Json.Token
import Columnar.Push

/-!
# Failures to take in JSON text

A text is taken in token by token, and the first thing that goes wrong ends it: there is no
token, a token stands where it must not, the input ends too early, a number or the nesting
is too large, the builder refuses a push, or the source of the text fails.

## Main definitions

* `Expected` — what the grammar wants next.
* `JsonCause`, `JsonError` — what went wrong and where, with its code and message.
-/

namespace Columnar

/-- What the grammar wants next. -/
inductive Expected
  /-- A value. -/
  | value
  /-- A key, or the end of the record. -/
  | keyOrEnd
  /-- A key. -/
  | key
  /-- The colon behind a key. -/
  | colon
  /-- A comma, or the end of the list. -/
  | commaOrBracket
  /-- A comma, or the end of the record. -/
  | commaOrBrace
  deriving DecidableEq, Repr

/-- What is wanted, in words. -/
def Expected.words : Expected → String
  | value => "a value"
  | keyOrEnd => "a string key or '\x7d'"
  | key => "a string key"
  | colon => "':'"
  | commaOrBracket => "',' or ']'"
  | commaOrBrace => "',' or '\x7d'"

/-- What went wrong. -/
inductive JsonCause
  /-- There is no token. -/
  | scan (cause : ScanCause)
  /-- The grammar wants something else. -/
  | unexpectedToken (got : Token) (expected : Expected)
  /-- The input ends, and the grammar wants more. -/
  | unexpectedEof (expected : Expected)
  /-- An integer does not fit in 64 bits. -/
  | numberOutOfRange (literal : String)
  /-- A container is nested too deep. -/
  | depthLimitExceeded (limit : Nat)
  /-- The builder refuses what was read. -/
  | builder (e : PushError)
  /-- The source failed with these words. -/
  | io (words : String)
  deriving DecidableEq

namespace JsonCause

/-- The code of a cause; a refusal keeps its own. -/
def code : JsonCause → String
  | scan _ => "json::scan"
  | unexpectedToken _ _ => "json::unexpected_token"
  | unexpectedEof _ => "json::unexpected_eof"
  | numberOutOfRange _ => "json::number_out_of_range"
  | depthLimitExceeded _ => "json::depth_limit_exceeded"
  | builder e => e.cause.code
  | io _ => "json::io"

/-- A cause in words. -/
def message : JsonCause → String
  | scan cause => cause.message
  | unexpectedToken got expected =>
    "unexpected token: got " ++ got.describe ++ ", expected " ++ expected.words
  | unexpectedEof expected => "unexpected end of input, expected " ++ expected.words
  | numberOutOfRange literal => "number `" ++ literal ++ "` out of range for a 64-bit integer"
  | depthLimitExceeded limit => "containers nested deeper than " ++ toString limit ++ " levels"
  | builder e => "builder error: " ++ e.message
  | io words => "I/O error: " ++ words

/-- The fault of the text itself, if there is no token. -/
def scan? : JsonCause → Option ScanCause
  | scan cause => some cause
  | _ => none

/-- The refusal that is the cause, if one is. -/
def refusal? : JsonCause → Option PushError
  | builder e => some e
  | _ => none

end JsonCause

/-- What went wrong, and where. -/
structure JsonError where
  /-- The cause. -/
  cause : JsonCause
  /-- The bytes at fault. -/
  span : Span
  deriving DecidableEq

namespace JsonError

/-- The error of a text in which there is no token. -/
def ofScan (e : ScanError) : JsonError := ⟨.scan e.cause, e.span⟩

/-- An error in words. -/
def message (e : JsonError) : String := e.cause.message ++ " at offset " ++ toString e.span.offset

end JsonError

end Columnar
