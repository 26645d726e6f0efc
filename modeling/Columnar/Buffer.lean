import Columnar.Document

/-!
# Buffers

A buffer is a flat run of elements of one type.  The buffers of an array stand under names
in a table; storing one under a name that is taken replaces the one before it.

## Main definitions

* `Buffer` — the six types of buffers.
* `Buffer.size`, `Buffer.elementName`, `Buffer.leBytes` — what can be asked of any buffer.
* `Buffers`, `bufferName` — tables of buffers and the names in them.
-/

namespace Columnar

/-- A flat run of elements.  Integers are held by value; only their low bytes are stored. -/
inductive Buffer
  /-- Truth values, a byte each. -/
  | bool (data : Array Bool)
  /-- Signed bytes: the tags of a union. -/
  | int8 (data : Array Int)
  /-- Bytes: the characters of text. -/
  | uint8 (data : Array UInt8)
  /-- Signed words: integers, times, offsets and indexes. -/
  | int64 (data : Array Int)
  /-- Reals. -/
  | float64 (data : Array Binary64)
  /-- Complex numbers. -/
  | complex128 (data : Array Complex)
  deriving DecidableEq

/-- The low bytes of an integer in two's complement, lowest first. -/
def leBytesOfInt (width : Nat) (n : Int) : List UInt8 :=
  (List.range width).map fun i => UInt8.ofNat ((n / powerOfTwo (8 * i)) % 256).toNat

namespace Buffer

/-- The number of elements. -/
def size : Buffer → Nat
  | bool d => d.size
  | int8 d => d.size
  | uint8 d => d.size
  | int64 d => d.size
  | float64 d => d.size
  | complex128 d => d.size

/-- The name of the element type. -/
def elementName : Buffer → String
  | bool _ => "bool"
  | int8 _ => "int8"
  | uint8 _ => "uint8"
  | int64 _ => "int64"
  | float64 _ => "float64"
  | complex128 _ => "complex128"

/-- The bytes of the elements, the lowest byte of each first; a complex number is its real
part and then its imaginary one. -/
def leBytes : Buffer → List UInt8
  | bool d => d.toList.map fun b => if b then 1 else 0
  | int8 d => d.toList.flatMap (leBytesOfInt 1)
  | uint8 d => d.toList
  | int64 d => d.toList.flatMap (leBytesOfInt 8)
  | float64 d => d.toList.flatMap Binary64.leBytes
  | complex128 d => d.toList.flatMap fun z => z.re.leBytes ++ z.im.leBytes

end Buffer

/-- A table of named buffers, in the order in which the names were first stored. -/
abbrev Buffers := List (String × Buffer)

/-- Stores buffers one after another. -/
def Buffers.store (table : Buffers) (more : Buffers) : Buffers :=
  more.foldl (fun t e => assign t e.1 e.2) table

/-- The name of a buffer: the partition, the key of its form, and its role there. -/
def bufferName (partition key role : String) : String :=
  "part" ++ partition ++ "-" ++ key ++ "-" ++ role

end Columnar
