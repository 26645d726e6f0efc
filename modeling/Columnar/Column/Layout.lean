import Columnar.Column.Push
import Columnar.Buffer
import Columnar.Form

/-!
# Columns as forms and buffers

The complete elements of a column are laid out as a form and named buffers.  Nodes are
numbered from the root down, in order, and the number of a node is part of its key.  What
belongs to an element that is still open is left out where it would be counted; columns
below it may show elements that no list or index refers to yet.

Only the root carries the annotations that were set; a column of strings and a column of
named records add one of their own.

## Main definitions

* `Layout` — a form, its buffers, and the number of the next node.
* `Column.layout` — the layout of a column.
-/

namespace Columnar

/-- A form, its buffers in order, and the number that the next node takes. -/
structure Layout where
  /-- The form. -/
  form : Form
  /-- The buffers, in the order of their nodes. -/
  buffers : Buffers
  /-- The number of the next node. -/
  next : Nat

/-- The layouts of several columns, one after another. -/
structure Layouts where
  /-- The forms. -/
  forms : List Form
  /-- The buffers of all. -/
  buffers : Buffers
  /-- The number of the next node. -/
  next : Nat

/-- The key of a node. -/
def nodeKey (n : Nat) : String := "node" ++ toString n

namespace Column

/-- A place in an option index, as an integer: missing elements have -1. -/
def placeInt : Option Nat → Int
  | some i => i
  | none => -1

/-- Offsets, or any sizes, as the data of a buffer. -/
def sizesBuffer (sizes : Array Nat) : Buffer := .int64 (sizes.map Int.ofNat)

/-- Integers as the data of a buffer. -/
def wordsBuffer (words : Array Int64) : Buffer := .int64 (words.map Int64.toInt)

/-- A node of one flat buffer. -/
def flatLayout (partition : String) (parameters : Parameters) (next : Nat) (primitive : Primitive)
    (data : Buffer) : Layout :=
  let key := nodeKey next
  ⟨.flat primitive ⟨parameters, some key⟩, [(bufferName partition key "data", data)], next + 1⟩

/-- The annotations of records of a name. -/
def recordParameters (parameters : Parameters) : Option String → Parameters
  | some name => assign parameters recordParameter (.string name)
  | none => parameters

mutual

/-- The layout of a column, its nodes numbered from `next`. -/
def layout (partition : String) : Parameters → Nat → Column → Layout
  | ps, next, .unknown 0 => ⟨.empty ⟨ps, some (nodeKey next)⟩, [], next + 1⟩
  | ps, next, .unknown (n + 1) =>
    let key := nodeKey next
    ⟨.option .i64 (.empty ⟨[], some (nodeKey (next + 1))⟩) ⟨ps, some key⟩,
      [(bufferName partition key "index", .int64 (Array.replicate (n + 1) (-1)))], next + 2⟩
  | ps, next, .option index content =>
    let key := nodeKey next
    let n := length (.option index content)
    let inner := layout partition [] (next + 1) content
    ⟨.option .i64 inner.form ⟨ps, some key⟩,
      (bufferName partition key "index", .int64 ((index.take n).map placeInt)) :: inner.buffers,
      inner.next⟩
  | ps, next, .bool vs => flatLayout partition ps next .bool (.bool vs)
  | ps, next, .int64 vs => flatLayout partition ps next .int64 (wordsBuffer vs)
  | ps, next, .float64 vs => flatLayout partition ps next .float64 (.float64 vs)
  | ps, next, .complex128 vs => flatLayout partition ps next .complex128 (.complex128 vs)
  | ps, next, .time kind unit vs =>
    flatLayout partition ps next (.time kind unit) (wordsBuffer vs)
  | ps, next, .string encoding offsets data =>
    let key := nodeKey next
    let items := flatLayout partition [(arrayParameter, .string encoding.itemName)] (next + 1)
      .uint8 (.uint8 data)
    ⟨.list .i64 items.form
        ⟨assign ps arrayParameter (.string encoding.arrayName), some key⟩,
      (bufferName partition key "offsets", sizesBuffer offsets) :: items.buffers, items.next⟩
  | ps, next, .list offsets content _ =>
    let key := nodeKey next
    let inner := layout partition [] (next + 1) content
    ⟨.list .i64 inner.form ⟨ps, some key⟩,
      (bufferName partition key "offsets", sizesBuffer offsets) :: inner.buffers, inner.next⟩
  | ps, next, .tuple slots _ _ =>
    let inner := layouts partition (next + 1) slots
    ⟨.record inner.forms none ⟨ps, some (nodeKey next)⟩, inner.buffers, inner.next⟩
  | ps, next, .record name fields _ _ _ _ =>
    let inner := fieldLayouts partition (next + 1) fields
    ⟨.record inner.forms (some (fields.map Prod.fst))
        ⟨recordParameters ps name, some (nodeKey next)⟩,
      inner.buffers, inner.next⟩
  | ps, next, .union tags index children current =>
    let key := nodeKey next
    let n := length (.union tags index children current)
    let inner := layouts partition (next + 1) children
    ⟨.union .i8 .i64 inner.forms ⟨ps, some key⟩,
      (bufferName partition key "tags", .int8 ((tags.take n).map Int.ofNat))
        :: (bufferName partition key "index", sizesBuffer (index.take n)) :: inner.buffers,
      inner.next⟩

/-- The layouts of columns that carry no annotations. -/
def layouts (partition : String) : Nat → List Column → Layouts
  | next, [] => ⟨[], [], next⟩
  | next, c :: cs =>
    let head := layout partition [] next c
    let tail := layouts partition head.next cs
    ⟨head.form :: tail.forms, head.buffers ++ tail.buffers, tail.next⟩

/-- The layouts of the columns of fields. -/
def fieldLayouts (partition : String) : Nat → List (String × Column) → Layouts
  | next, [] => ⟨[], [], next⟩
  | next, (_, c) :: rest =>
    let head := layout partition [] next c
    let tail := fieldLayouts partition head.next rest
    ⟨head.form :: tail.forms, head.buffers ++ tail.buffers, tail.next⟩

end

end Column

end Columnar
