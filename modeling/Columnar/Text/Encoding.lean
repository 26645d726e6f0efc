/-!
# Encodings of strings

The bytes of a string are text or any bytes.  An array of strings is an array of lists of
bytes whose annotations tell which.

## Main definitions

* `Encoding` — text or bytes.
* `Encoding.arrayName`, `Encoding.itemName` — how arrays of strings and their items are annotated.
* `Encoding.ofArrayName?` — the encoding of an annotation.
-/

namespace Columnar

/-- What the bytes of a string are. -/
inductive Encoding
  /-- Text in UTF-8. -/
  | utf8
  /-- Any bytes. -/
  | bytes
  deriving DecidableEq, Repr, Inhabited

namespace Encoding

/-- The name of an encoding. -/
def name : Encoding → String
  | utf8 => "utf8"
  | bytes => "bytes"

/-- The annotation by which lists of bytes are strings. -/
def arrayName : Encoding → String
  | utf8 => "string"
  | bytes => "bytestring"

/-- The annotation of the bytes themselves. -/
def itemName : Encoding → String
  | utf8 => "char"
  | bytes => "byte"

/-- The encoding of an annotation of lists. -/
def ofArrayName? (s : String) : Option Encoding :=
  if s = "string" then some utf8 else if s = "bytestring" then some bytes else none

@[simp] theorem ofArrayName?_arrayName (e : Encoding) : ofArrayName? e.arrayName = some e := by
  cases e <;> decide

end Encoding

/-- The name of the annotation for what an array stands for. -/
def arrayParameter : String := "__array__"

/-- The name of the annotation for the name of records. -/
def recordParameter : String := "__record__"

end Columnar
