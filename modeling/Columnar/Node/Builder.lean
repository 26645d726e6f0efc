import Columnar.Builder
import Columnar.Node.Layout
import Columnar.Node.Push

/-!
# Builders of nodes

A builder whose root is a node.  The annotations that are set are put into the root; what becomes
of them is up to the nodes.

## Main definitions

* `NodeBuilder` — the type, and `NodeBuilder.new`.
* `NodeBuilder.builder` — the builder with the elements of the root.
* `NodeBuilder.push`, `NodeBuilder.clear`, `NodeBuilder.setParameter`, `NodeBuilder.finalize`.
* `NodeBuilder.layout`, `NodeBuilder.snapshot` — what has been built.
-/

namespace Columnar

/-- An array under construction, as nodes. -/
structure NodeBuilder where
  /-- The settings. -/
  options : Options
  /-- The outermost node. -/
  root : Node
  /-- Whether pushes are refused. -/
  isFinalized : Bool
  /-- How many containers are open. -/
  depth : Nat

namespace NodeBuilder

/-- A builder without elements. -/
def new (o : Options) : NodeBuilder := ⟨o, .new o, false, 0⟩

/-- The builder with the elements and the annotations of the root. -/
def builder (b : NodeBuilder) : Builder :=
  ⟨b.options, b.root.column, b.root.label.parameters, b.isFinalized, b.depth⟩

/-- The number of complete elements. -/
def length (b : NodeBuilder) : Nat := b.root.length

/-- Removes all elements; kinds stay, and pushes are taken again. -/
def clear (b : NodeBuilder) : NodeBuilder :=
  { b with root := b.root.clear, isFinalized := false, depth := 0 }

/-- Sets an annotation of the root. -/
def setParameter (b : NodeBuilder) (name : String) (value : Document) : NodeBuilder :=
  { b with root := b.root.setParameter name value }

/-- The outcome of a push. -/
def push (b : NodeBuilder) (p : Push) : Pushed NodeBuilder :=
  match b.builder.cause? p with
  | some cause => .error ⟨b, ⟨p.word, cause⟩⟩
  | none =>
    match b.root.push p with
    | .ok root => .ok { b with root, depth := Builder.depthAfter p b.depth }
    | .error r => .error ⟨{ b with root := r.state }, r.error⟩

/-- The form and the buffers of the complete elements. -/
def layout (b : NodeBuilder) (partition : String) : Layout := b.root.layout partition 0

/-- Stores the buffers in a table and returns the form. -/
def toBuffers (b : NodeBuilder) (partition : String) (table : Buffers) : Form × Buffers :=
  let l := b.layout partition
  (l.form, table.store l.buffers)

/-- The form and the buffers, after which the builder refuses pushes. -/
def finalize (b : NodeBuilder) (table : Buffers) : NodeBuilder × Form × Buffers :=
  let (form, table) := b.toBuffers Builder.defaultPartition table
  ({ b with isFinalized := true }, form, table)

/-- The complete elements. -/
def snapshot (b : NodeBuilder) : Reading (List Value) :=
  let l := b.layout Builder.defaultPartition
  l.form.toValues b.length l.buffers Builder.defaultPartition

end NodeBuilder

end Columnar
