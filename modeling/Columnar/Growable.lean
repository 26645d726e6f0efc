import Columnar.Options

/-!
# Growable storage

Elements are appended to storage of a known capacity.  When they no longer fit, the
capacity becomes the first term that is large enough of the sequence that starts at the
capacity and multiplies by the growth factor, rounding up and moving on by at least one.
Clearing keeps the capacity.

Storage is one block of memory, and no block is larger than `maxBytes`.  The operations say
which capacity is asked for; `Growable.allocated?` says whether there is storage of it.

## Main definitions

* `nextCapacity` — one step of the sequence.
* `growTo` — the first term that is large enough.
* `Growable` — storage with its capacity and factor.
* `Growable.append`, `Growable.extend`, `Growable.clear`, `Growable.map`.
* `Growable.allocated?` — the storage, unless it would be larger than a block can be.
-/

namespace Columnar

/-- The greatest size of storage that can be asked for. -/
def maxSize : Nat := 0xffffffffffffffff

/-- The greatest number of bytes in one block of memory. -/
def maxBytes : Nat := 0x7fffffffffffffff

/-- Elements that all take the same number of bytes. -/
class FixedWidth (α : Type) where
  /-- The bytes of one element. -/
  width : Nat

instance : FixedWidth Bool := ⟨1⟩

instance : FixedWidth UInt8 := ⟨1⟩

instance : FixedWidth Int8 := ⟨1⟩

instance : FixedWidth Int64 := ⟨8⟩

instance : FixedWidth Binary64 := ⟨8⟩

instance : FixedWidth Complex := ⟨16⟩

/-- The capacity after `c`: `c` times the factor, rounded up, and at least `c + 1`. -/
def nextCapacity (factor : Binary64) (c : Nat) : Nat :=
  max (((Binary64.ofNat c).mul factor).ceilSaturating maxSize) (c + 1)

theorem lt_nextCapacity (factor : Binary64) (c : Nat) : c < nextCapacity factor c := by
  unfold nextCapacity; omega

/-- The first capacity at or above `needed`, starting from `c`. -/
def growTo (factor : Binary64) (needed c : Nat) : Nat :=
  if c < needed then growTo factor needed (nextCapacity factor c) else c
termination_by needed - c
decreasing_by have := lt_nextCapacity factor c; omega

/-- Elements in storage that grows by a factor. -/
structure Growable (α : Type) where
  /-- The elements. -/
  items : Array α
  /-- How many elements fit. -/
  capacity : Nat
  /-- The factor by which the capacity grows. -/
  factor : Binary64

namespace Growable

variable {α β : Type}

/-- No elements, with the initial capacity. -/
def empty (o : Options) : Growable α := ⟨#[], o.initial, o.resize⟩

/-- The given elements in storage of their own. -/
def adopt (o : Options) (items : Array α) (capacity : Nat) : Growable α :=
  ⟨items, capacity, o.resize⟩

/-- A number of copies of one element. -/
def full (o : Options) (value : α) (n : Nat) : Growable α :=
  ⟨Array.replicate n value, max o.initial n, o.resize⟩

/-- The integers from zero up to, not including, `n`. -/
def arange (o : Options) (n : Nat) : Growable Int64 :=
  ⟨(Array.range n).map Int64.ofNat, max o.initial n, o.resize⟩

/-- The number of elements. -/
def size (g : Growable α) : Nat := g.items.size

/-- The same elements with room for `needed`. -/
def reserve (g : Growable α) (needed : Nat) : Growable α :=
  if g.capacity < needed then { g with capacity := growTo g.factor needed g.capacity } else g

/-- Appends one element. -/
def append (g : Growable α) (x : α) : Growable α :=
  let g := g.reserve (g.size + 1)
  { g with items := g.items.push x }

/-- Appends several elements. -/
def extend (g : Growable α) (xs : Array α) : Growable α :=
  let g := g.reserve (g.size + xs.size)
  { g with items := g.items ++ xs }

/-- Removes all elements; the capacity stays. -/
def clear (g : Growable α) : Growable α := { g with items := #[] }

/-- Converts every element; the capacity stays. -/
def map (f : α → β) (g : Growable α) : Growable β := ⟨g.items.map f, g.capacity, g.factor⟩

/-- The storage is not larger than a block of memory can be. -/
def Fits [FixedWidth α] (g : Growable α) : Prop := FixedWidth.width α * g.capacity ≤ maxBytes

instance [FixedWidth α] (g : Growable α) : Decidable g.Fits := Nat.decLe _ _

/-- The storage that is asked for; nothing if there is none so large. -/
def allocated? [FixedWidth α] (g : Growable α) : Option (Growable α) :=
  if g.Fits then some g else none

@[simp] theorem items_reserve (g : Growable α) (n : Nat) : (g.reserve n).items = g.items := by
  unfold reserve; split <;> rfl

@[simp] theorem items_append (g : Growable α) (x : α) : (g.append x).items = g.items.push x := by
  simp [append]

@[simp] theorem items_extend (g : Growable α) (xs : Array α) :
    (g.extend xs).items = g.items ++ xs := by
  simp [extend]

@[simp] theorem items_clear (g : Growable α) : g.clear.items = #[] := rfl

end Growable

end Columnar
