import Columnar.Column.Layout
import Columnar.Node

/-!
# Nodes as forms and buffers

A node is laid out as its column is, except that every node of the form carries the annotations
that the node itself keeps.

## Main definitions

* `Node.layout` — the layout of a node.
-/

namespace Columnar.Node

open Column (placeInt sizesBuffer wordsBuffer flatLayout recordParameters)

mutual

/-- The layout of a node, the nodes below numbered behind it. -/
def layout (partition : String) : Nat → Node → Layout
  | next, .unknown l 0 => ⟨.empty ⟨l.parameters, some (nodeKey next)⟩, [], next + 1⟩
  | next, .unknown l (n + 1) =>
    let key := nodeKey next
    ⟨.option .i64 (.empty ⟨[], some (nodeKey (next + 1))⟩) ⟨l.parameters, some key⟩,
      [(bufferName partition key "index", .int64 (Array.replicate (n + 1) (-1)))], next + 2⟩
  | next, .option l index content =>
    let key := nodeKey next
    let n := (option l index content).length
    let inner := layout partition (next + 1) content
    ⟨.option .i64 inner.form ⟨l.parameters, some key⟩,
      (bufferName partition key "index", .int64 ((index.take n).map placeInt)) :: inner.buffers,
      inner.next⟩
  | next, .bool l vs => flatLayout partition l.parameters next .bool (.bool vs)
  | next, .int64 l vs => flatLayout partition l.parameters next .int64 (wordsBuffer vs)
  | next, .float64 l vs => flatLayout partition l.parameters next .float64 (.float64 vs)
  | next, .complex128 l vs => flatLayout partition l.parameters next .complex128 (.complex128 vs)
  | next, .time l kind unit vs =>
    flatLayout partition l.parameters next (.time kind unit) (wordsBuffer vs)
  | next, .string l encoding offsets data =>
    let key := nodeKey next
    let items := flatLayout partition [(arrayParameter, .string encoding.itemName)] (next + 1)
      .uint8 (.uint8 data)
    ⟨.list .i64 items.form
        ⟨assign l.parameters arrayParameter (.string encoding.arrayName), some key⟩,
      (bufferName partition key "offsets", sizesBuffer offsets) :: items.buffers, items.next⟩
  | next, .list l offsets content _ =>
    let key := nodeKey next
    let inner := layout partition (next + 1) content
    ⟨.list .i64 inner.form ⟨l.parameters, some key⟩,
      (bufferName partition key "offsets", sizesBuffer offsets) :: inner.buffers, inner.next⟩
  | next, .tuple l slots _ _ =>
    let inner := layouts partition (next + 1) slots
    ⟨.record inner.forms none ⟨l.parameters, some (nodeKey next)⟩, inner.buffers, inner.next⟩
  | next, .record l name fields _ _ _ _ =>
    let inner := fieldLayouts partition (next + 1) fields
    ⟨.record inner.forms (some (fields.map Prod.fst))
        ⟨recordParameters l.parameters name, some (nodeKey next)⟩,
      inner.buffers, inner.next⟩
  | next, .union l tags index children current =>
    let key := nodeKey next
    let n := (union l tags index children current).length
    let inner := layouts partition (next + 1) children
    ⟨.union .i8 .i64 inner.forms ⟨l.parameters, some key⟩,
      (bufferName partition key "tags", .int8 ((tags.take n).map Int.ofNat))
        :: (bufferName partition key "index", sizesBuffer (index.take n)) :: inner.buffers,
      inner.next⟩

/-- The layouts of several nodes, one after another. -/
def layouts (partition : String) : Nat → List Node → Layouts
  | next, [] => ⟨[], [], next⟩
  | next, n :: ns =>
    let head := layout partition next n
    let tail := layouts partition head.next ns
    ⟨head.form :: tail.forms, head.buffers ++ tail.buffers, tail.next⟩

/-- The layouts of the nodes of fields. -/
def fieldLayouts (partition : String) : Nat → List (String × Node) → Layouts
  | next, [] => ⟨[], [], next⟩
  | next, (_, n) :: rest =>
    let head := layout partition next n
    let tail := fieldLayouts partition head.next rest
    ⟨head.form :: tail.forms, head.buffers ++ tail.buffers, tail.next⟩

end

end Columnar.Node
