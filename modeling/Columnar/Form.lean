import Columnar.Document
import Columnar.Time

/-!
# Forms

A form describes how named buffers combine into an array: the shape of the data without
the data.  Every node of a form carries annotations and the key under which its buffers
are found.

## Main definitions

* `Primitive` — the element type of a flat buffer, with its name and the type of a name.
* `IndexWidth` — the width of an index buffer.
* `Form` — the six kinds of nodes.
* `Form.label`, `Form.parameters`, `Form.key?`, `Form.className`.
-/

namespace Columnar

/-- The element type of a flat buffer. -/
inductive Primitive
  /-- Truth values. -/
  | bool
  /-- Bytes. -/
  | uint8
  /-- Signed 64-bit integers. -/
  | int64
  /-- Reals. -/
  | float64
  /-- Complex numbers. -/
  | complex128
  /-- Counts of a unit of time. -/
  | time (kind : TimeKind) (unit : TimeUnit)
  deriving DecidableEq, Repr, Inhabited

namespace Primitive

/-- The name of an element type; a time has its unit in brackets. -/
def name : Primitive → String
  | bool => "bool"
  | uint8 => "uint8"
  | int64 => "int64"
  | float64 => "float64"
  | complex128 => "complex128"
  | time kind unit => kind.elementName ++ "[" ++ unit.code ++ "]"

/-- Every element type. -/
def all : List Primitive :=
  [bool, uint8, int64, float64, complex128]
    ++ TimeUnit.all.map (time .datetime) ++ TimeUnit.all.map (time .timedelta)

/-- The element type of a name. -/
def ofName? (s : String) : Option Primitive := all.find? fun p => p.name == s

/-- What is said of a name that names no element type. -/
def unknownMessage (s : String) : String := "unknown primitive `" ++ s ++ "`"

end Primitive

/-- The width of an index buffer. -/
inductive IndexWidth
  /-- One byte: the tags of a union. -/
  | i8
  /-- A word: offsets and positions. -/
  | i64
  deriving DecidableEq, Repr, Inhabited

namespace IndexWidth

/-- The name of a width. -/
def name : IndexWidth → String
  | i8 => "i8"
  | i64 => "i64"

/-- The width of a name. -/
def ofName? (s : String) : Option IndexWidth :=
  if s = "i8" then some i8 else if s = "i64" then some i64 else none

@[simp] theorem ofName?_name (w : IndexWidth) : ofName? w.name = some w := by
  cases w <;> decide

end IndexWidth

/-- What every node of a form carries. -/
structure FormLabel where
  /-- Annotations. -/
  parameters : Parameters := []
  /-- The key under which the buffers of the node are found. -/
  key? : Option String := none
  deriving Inhabited

/-- The shape of an array. -/
inductive Form
  /-- No element has been seen. -/
  | empty (label : FormLabel)
  /-- A flat buffer, `data`. -/
  | flat (primitive : Primitive) (label : FormLabel)
  /-- Lists: element `i` is `content` from `offsets[i]` up to `offsets[i + 1]`. -/
  | list (offsets : IndexWidth) (content : Form) (label : FormLabel)
  /-- Elements that may be missing: a negative `index` is missing, any other selects. -/
  | option (index : IndexWidth) (content : Form) (label : FormLabel)
  /-- Records, whose fields have `keys`, or tuples, whose slots have none. -/
  | record (contents : List Form) (keys : Option (List String)) (label : FormLabel)
  /-- Elements of several kinds: element `i` is number `index[i]` of kind `tags[i]`. -/
  | union (tags index : IndexWidth) (contents : List Form) (label : FormLabel)
  deriving Inhabited

namespace Form

/-- The label of the outermost node. -/
def label : Form → FormLabel
  | empty l => l
  | flat _ l => l
  | list _ _ l => l
  | option _ _ l => l
  | record _ _ l => l
  | union _ _ _ l => l

/-- The annotations of the outermost node. -/
def parameters (f : Form) : Parameters := f.label.parameters

/-- The key of the outermost node. -/
def key? (f : Form) : Option String := f.label.key?

/-- A single annotation of the outermost node. -/
def parameter? (f : Form) (name : String) : Option Document := lookup f.parameters name

/-- The name of the class of the outermost node. -/
def className : Form → String
  | empty _ => "EmptyArray"
  | flat _ _ => "NumpyArray"
  | list _ _ _ => "ListOffsetArray"
  | option _ _ _ => "IndexedOptionArray"
  | record _ _ _ => "RecordArray"
  | union _ _ _ _ => "UnionArray"

end Form

end Columnar
