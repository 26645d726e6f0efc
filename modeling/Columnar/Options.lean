import Columnar.Binary64
import Columnar.Document

/-!
# Options of a builder

Options say how storage starts and grows, how deep containers may nest, and which fields
records of a given name start with.  Settings that would be of no use are replaced when
they are made: an initial capacity of zero by one, and a growth factor that would not grow
by two.

## Main definitions

* `Options` — the settings, with the promises that the setters keep.
* `Options.withInitial`, `Options.withResize`, `Options.withMaxDepth`, `Options.declare`.
* `Options.declaredFields?` — the fields declared for records of a name.
-/

namespace Columnar

/-- The number of containers that may be open at once unless set otherwise. -/
def defaultMaxDepth : Nat := 128

/-- Settings shared by all columns of a builder. -/
structure Options where
  /-- The capacity new storage starts with. -/
  initial : Nat := 1024
  /-- The factor by which full storage grows. -/
  resize : Binary64 := .two
  /-- The fields declared for records, under the names of the records. -/
  declared : List (String × List String) := []
  /-- The number of containers that may be open at once. -/
  maxDepth : Nat := defaultMaxDepth
  /-- Storage starts with room for an element. -/
  initial_pos : 0 < initial := by decide
  /-- Storage grows. -/
  one_lt_resize : Binary64.one.lt resize = true := by decide

/-- The settings that are made unless others are. -/
instance : Inhabited Options := ⟨{}⟩

namespace Options

/-- Sets the initial capacity; zero becomes one. -/
def withInitial (o : Options) (n : Nat) : Options :=
  { o with initial := max n 1, initial_pos := by omega }

/-- Sets the growth factor; one that is not above one, or not a number, becomes two. -/
def withResize (o : Options) (x : Binary64) : Options :=
  if h : Binary64.one.lt x = true then { o with resize := x, one_lt_resize := h }
  else { o with resize := .two, one_lt_resize := by decide }

/-- Sets the number of containers that may be open at once. -/
def withMaxDepth (o : Options) (n : Nat) : Options := { o with maxDepth := n }

/-- Declares the fields of records of a name, in place of those declared before. -/
def declare (o : Options) (name : String) (fields : List String) : Options :=
  { o with declared := assign o.declared name fields }

/-- The fields declared for records of a name; nothing is declared for unnamed ones. -/
def declaredFields? (o : Options) (name : Option String) : Option (List String) :=
  name.bind (lookup o.declared)

@[simp] theorem declaredFields?_none (o : Options) : o.declaredFields? none = none := rfl

end Options

end Columnar
