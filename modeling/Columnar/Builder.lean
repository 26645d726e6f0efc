import Columnar.Column.Layout
import Columnar.Form.Values

/-!
# Builders

A builder is the root of an array under construction: a column, the annotations of its
root, and how many containers are open.  A builder can be sealed, after which it refuses
every push until it is cleared.

Settings and annotations are kept once, beside the columns.  In a `NodeBuilder` every node
has its own and hands them over when another one takes its place; both kinds of builders do
the same (`NodeBuilder.builder_run`).

## Main definitions

* `Builder` — the type, and `Builder.new`.
* `Builder.push`, `Builder.pushAll` — the outcomes of pushes.
* `Value.pushes` — the pushes that a value stands for.
* `Builder.append`, `Builder.extend` — whole values.
* `Builder.clear`, `Builder.setParameter`, `Builder.finalize`.
* `Builder.layout`, `Builder.snapshot` — what has been built.
-/

namespace Columnar

/-- An array under construction. -/
structure Builder where
  /-- The settings. -/
  options : Options
  /-- The column of the elements. -/
  root : Column
  /-- The annotations of the root. -/
  parameters : Parameters
  /-- Whether pushes are refused. -/
  isFinalized : Bool
  /-- How many containers are open. -/
  depth : Nat
  deriving Inhabited

namespace Builder

/-- A builder without elements. -/
def new (o : Options) : Builder := ⟨o, .unknown 0, [], false, 0⟩

/-- The number of complete elements. -/
def length (b : Builder) : Nat := b.root.length

/-- Whether a container is open. -/
def isActive (b : Builder) : Bool := b.root.isActive

/-- The kind of the root. -/
def kind (b : Builder) : ColumnKind := b.root.kind

/-- Removes all elements; kinds stay, and pushes are taken again. -/
def clear (b : Builder) : Builder :=
  { b with root := b.root.clear, isFinalized := false, depth := 0 }

/-- Sets an annotation of the root. -/
def setParameter (b : Builder) (name : String) (value : Document) : Builder :=
  { b with parameters := assign b.parameters name value.sorted }

/-! ### Pushes -/

/-- The number of open containers after a push. -/
def depthAfter (p : Push) (depth : Nat) : Nat :=
  if p.opens?.isSome then depth + 1 else if p.closes?.isSome then depth - 1 else depth

/-- Why a builder refuses a push before the column sees it: it would open a container too
many, or the builder is finalized. -/
def cause? (b : Builder) (p : Push) : Option PushCause :=
  if b.isFinalized then some .finalized
  else if p.opens?.isSome ∧ b.options.maxDepth ≤ b.depth then
    some (.depthLimitExceeded b.options.maxDepth)
  else none

/-- The outcome of a push. -/
def push (b : Builder) (p : Push) : Pushed Builder :=
  match b.cause? p with
  | some cause => .error ⟨b, ⟨p.word, cause⟩⟩
  | none =>
    -- the depth changes only with a push that is taken
    let ⟨options, root, parameters, isFinalized, depth⟩ := b
    match root.push options p with
    | .ok root => .ok ⟨options, root, parameters, isFinalized, depthAfter p depth⟩
    | .error r => .error ⟨⟨options, r.state, parameters, isFinalized, depth⟩, r.error⟩

/-- The outcome of pushes one after another, up to the first that is refused. -/
def pushAll (b : Builder) : List Push → Pushed Builder
  | [] => .ok b
  | p :: ps =>
    match b.push p with
    | .ok b => b.pushAll ps
    | .error r => .error r

@[simp] theorem pushAll_nil (b : Builder) : b.pushAll [] = .ok b := rfl

theorem pushAll_cons_ok {b b' : Builder} {p : Push} (h : b.push p = .ok b') (ps : List Push) :
    b.pushAll (p :: ps) = b'.pushAll ps := by
  rw [pushAll, h]

theorem pushAll_cons_error {b : Builder} {p : Push} {r : Refused Builder}
    (h : b.push p = .error r) (ps : List Push) : b.pushAll (p :: ps) = .error r := by
  rw [pushAll, h]

end Builder

/-! ### Values -/

namespace Value

mutual

/-- The pushes that a value stands for. -/
def pushes : Value → List Push
  | .null => [.null]
  | .bool b => [.bool b]
  | .int n => [.int n]
  | .real x => [.real x]
  | .complex z => [.complex z]
  | .datetime n unit => [.time .datetime n unit]
  | .timedelta n unit => [.time .timedelta n unit]
  | .string s => [.text s]
  | .bytes data => [.string .bytes data]
  | .list items => .beginList :: itemPushes items ++ [.endList]
  | .tuple items => .beginTuple items.length :: slotPushes 0 items ++ [.endTuple]
  | .record name fields => .beginRecord name :: fieldPushes fields ++ [.endRecord]

/-- The pushes of the items of a list. -/
def itemPushes : List Value → List Push
  | [] => []
  | v :: vs => pushes v ++ itemPushes vs

/-- The pushes of the slots of a tuple, from slot `i` on. -/
def slotPushes : Nat → List Value → List Push
  | _, [] => []
  | i, v :: vs => .index i :: pushes v ++ slotPushes (i + 1) vs

/-- The pushes of the fields of a record. -/
def fieldPushes : List (String × Value) → List Push
  | [] => []
  | (key, v) :: rest => .field key false :: pushes v ++ fieldPushes rest

end

end Value

namespace Builder

/-- The outcome of pushing a whole value; a refusal inside it leaves its containers open. -/
def append (b : Builder) (v : Value) : Pushed Builder := b.pushAll v.pushes

/-- The outcome of pushing values one after another. -/
def extend (b : Builder) (vs : List Value) : Pushed Builder := b.pushAll (Value.itemPushes vs)

/-! ### What has been built -/

/-- The form and the buffers of the complete elements. -/
def layout (b : Builder) (partition : String) : Layout :=
  b.root.layout partition b.parameters 0

/-- Stores the buffers in a table and returns the form. -/
def toBuffers (b : Builder) (partition : String) (table : Buffers) : Form × Buffers :=
  let l := b.layout partition
  (l.form, table.store l.buffers)

/-- The partition that is meant if none is given. -/
def defaultPartition : String := "0"

/-- The form and the buffers, after which the builder refuses pushes. -/
def finalize (b : Builder) (table : Buffers) : Builder × Form × Buffers :=
  let (form, table) := b.toBuffers defaultPartition table
  ({ b with isFinalized := true }, form, table)

/-- The complete elements. -/
def snapshot (b : Builder) : Reading (List Value) :=
  let l := b.layout defaultPartition
  l.form.toValues b.length l.buffers defaultPartition

end Builder

end Columnar
