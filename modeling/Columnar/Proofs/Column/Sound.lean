import Mathlib.Data.List.ReduceOption
import Columnar.Proofs.Column.Nodes

/-!
# Sound columns

The parts of a column count one another: an index counts the elements of its content,
offsets count items, slots count elements, the tags of a union count those of every child.
While a container is open, the columns below it run ahead of what their parents count, by
one element and only on the way to the container that is being filled.  A column is sound
if these counts agree at every node.

## Main definitions

* `IsOffsets` — offsets of runs that lie end to end.
* `Column.OptionSound`, `Column.ListSound`, `Column.SlotsSound`, `Column.UnionSound` — what
  holds between a node and the nodes directly below it, by the kind of the node.
* `Column.NodeSound`, `Column.Sound` — soundness at a node and at all nodes of a tree.
* `Column.IsNode` — the nodes of a tree.
-/

namespace Columnar

/-- Offsets of runs that lie end to end: they begin at zero, never decrease, and end at
`total`. -/
structure IsOffsets (offsets : Array Nat) (total : Nat) : Prop where
  /-- There is a first offset, and it is zero. -/
  head : offsets[0]? = some 0
  /-- No offset is less than one before it. -/
  sorted : offsets.toList.Pairwise (· ≤ ·)
  /-- The last offset. -/
  last : offsets.back? = some total

namespace Column

/-- A column whose elements may be missing. -/
structure OptionSound (index : Array (Option Nat)) (content : Column) : Prop where
  /-- The places of the present elements are 0, 1, 2, … in order, as many as the content has
  elements, and one more for an element still open. -/
  places : index.toList.reduceOption = List.range (content.length + content.isActive.toNat)
  /-- The place of an open element is the last entry. -/
  last : content.isActive = true → index.back? = some (some content.length)
  /-- The content has a kind. -/
  not_unknown : content.kind ≠ .unknown
  /-- The content is not optional once more. -/
  not_option : content.kind ≠ .option

/-- A column of lists. -/
structure ListSound (offsets : Array Nat) (content : Column) (isOpen : Bool) : Prop where
  /-- The offsets end at the length of the content, or before it while a list is open. -/
  offsets : ∃ total ≤ content.length,
    IsOffsets offsets total ∧ (isOpen = false → total = content.length)
  /-- Nothing is open below a closed list. -/
  content : content.isActive = true → isOpen = true

/-- The slots of a column of `n` tuples or records. -/
structure SlotsSound (slots : List Column) (n : Nat) (filling : Filling) : Prop where
  /-- A slot has as many elements as the column, or one more while an element is filled. -/
  length : ∀ c ∈ slots, c.length = n ∨ filling.isOpen = true ∧ c.length = n + 1
  /-- Only the selected slot can be open, and then it has no element for this row yet. -/
  active : ∀ i c, slots[i]? = some c → c.isActive = true →
    filling.slot? = some i ∧ c.length = n
  /-- The selected slot is one of the slots. -/
  selected : ∀ i, filling.slot? = some i → i < slots.length

/-- The places in one child of a union. -/
def placesOf (tags index : Array Nat) (tag : Nat) : List Nat :=
  ((tags.toList.zip index.toList).filter fun e => e.1 == tag).map Prod.snd

/-- A union of columns. -/
structure UnionSound (tags index : Array Nat) (children : List Column) (current : Option Nat) :
    Prop where
  /-- Every element has a tag and a place. -/
  size_eq : tags.size = index.size
  /-- A union has at least two children. -/
  two_le : 2 ≤ children.length
  /-- Tags can number all children. -/
  le_max : children.length ≤ maxUnionKinds
  /-- No child is unknown, optional or a union: each holds the elements of a class. -/
  classes : ∀ c ∈ children, c.class?.isSome
  /-- No two children hold the same class. -/
  distinct : (children.map class?).Nodup
  /-- Every tag is the number of a child. -/
  tags_lt : ∀ tag ∈ tags.toList, tag < children.length
  /-- The places in a child are 0, 1, 2, … in order, as many as the child has elements, and
  one more for an element still open. -/
  places : ∀ tag c, children[tag]? = some c →
    placesOf tags index tag = List.range (c.length + c.isActive.toNat)
  /-- The current child is the one that is open. -/
  active_iff : ∀ tag c, children[tag]? = some c → (c.isActive = true ↔ current = some tag)
  /-- The tag of an open element is the last one. -/
  last : ∀ tag, current = some tag → tag < children.length ∧ tags.back? = some tag

/-- What holds between a column and the columns directly below it. -/
def NodeSound : Column → Prop
  | .option index content => OptionSound index content
  | .string _ offsets data => IsOffsets offsets data.size
  | .list offsets content isOpen => ListSound offsets content isOpen
  | .tuple slots n filling => SlotsSound slots n filling
  | .record _ fields n filling _ _ =>
    SlotsSound (columnsOf fields) n filling ∧ (fields.map Prod.fst).Nodup
  | .union tags index children current => UnionSound tags index children current
  | _ => True

/-- A column that is sound at every node. -/
inductive Sound : Column → Prop
  /-- Soundness at the root and below every node directly under it. -/
  | intro {c : Column} (node : c.NodeSound) (below : ∀ d ∈ c.children, Sound d) : Sound c

theorem Sound.node {c : Column} : c.Sound → c.NodeSound
  | .intro h _ => h

theorem Sound.children {c : Column} : c.Sound → ∀ d ∈ c.children, d.Sound
  | .intro _ h => h

/-- The columns that are nodes of a column: itself, and the nodes of its children. -/
inductive IsNode : Column → Column → Prop
  /-- The root. -/
  | root (c : Column) : IsNode c c
  /-- A node of a child. -/
  | child {c d e : Column} (hd : d ∈ c.children) (he : IsNode e d) : IsNode e c

theorem Sound.of_isNode {c d : Column} (hc : c.Sound) (hd : d.IsNode c) : d.NodeSound := by
  induction hd with
  | root => exact hc.node
  | child hmem _ ih => exact ih (hc.children _ hmem)

end Column

/-! ### Offsets -/

namespace IsOffsets

theorem single : IsOffsets #[0] 0 := ⟨rfl, by simp, rfl⟩

theorem size_pos {offsets : Array Nat} {total : Nat} (h : IsOffsets offsets total) :
    0 < offsets.size := by
  by_contra hn
  have hlast := h.last
  rw [Array.back?, Array.getElem?_eq_none (by omega)] at hlast
  cases hlast

/-- One more run at the end. -/
theorem push {offsets : Array Nat} {total next : Nat} (h : IsOffsets offsets total)
    (hle : total ≤ next) : IsOffsets (offsets.push next) next := by
  refine ⟨?_, ?_, by simp⟩
  · rw [Array.getElem?_push_lt h.size_pos, ← Array.getElem?_eq_getElem h.size_pos, h.head]
  · obtain ⟨before, rfl⟩ := Array.back?_eq_some_iff.mp h.last
    have hs := h.sorted
    rw [Array.toList_push, List.pairwise_append] at hs
    rw [Array.toList_push, List.pairwise_append]
    refine ⟨h.sorted, by simp, ?_⟩
    intro x hx y hy
    rw [List.mem_singleton.mp hy]
    rw [Array.toList_push, List.mem_append, List.mem_singleton] at hx
    rcases hx with hx | rfl
    · exact Nat.le_trans (hs.2.2 x hx total (List.mem_singleton_self _)) hle
    · exact hle

end IsOffsets

end Columnar
