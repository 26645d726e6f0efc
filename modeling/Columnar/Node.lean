import Columnar.Column.Push

/-!
# Nodes

A column tells which elements there are.  Every place of it is a node of its own, which beside
its elements keeps a copy of the settings it was made with, and annotations.  When one node takes
the place of another — for a first element, for wider numbers, or around it as a wrapper — what
the other kept is handed over to it.  A node that is made below another one gets a copy of the
settings, and no annotations.

What is asked of the elements of a node is asked of its column.

## Main definitions

* `NodeLabel`, `Node` — what a node keeps, and the type.
* `Node.column` — the elements of a node.
* `Node.empty`, `Node.promote` — a node without elements, and what an unknown one becomes.
* `Node.widened`, `Node.accept` — a node of wider numbers, and one more element.
* `Node.wrapOption`, `Node.wrapUnion` — a node wrapped into another one.
* `Node.clear`, `Node.setParameter`.
-/

namespace Columnar

/-- What a node keeps beside its elements. -/
structure NodeLabel where
  /-- A copy of the settings. -/
  options : Options
  /-- The annotations. -/
  parameters : Parameters := []

/-- A column of which every place keeps settings and annotations. -/
inductive Node
  /-- Nothing but a number of missing elements. -/
  | unknown (label : NodeLabel) (nulls : Nat)
  /-- Elements that may be missing. -/
  | option (label : NodeLabel) (index : Array (Option Nat)) (content : Node)
  /-- Truth values. -/
  | bool (label : NodeLabel) (values : Array Bool)
  /-- Integers. -/
  | int64 (label : NodeLabel) (values : Array Int64)
  /-- Reals. -/
  | float64 (label : NodeLabel) (values : Array Binary64)
  /-- Complex numbers. -/
  | complex128 (label : NodeLabel) (values : Array Complex)
  /-- Times of one kind and unit. -/
  | time (label : NodeLabel) (kind : TimeKind) (unit : TimeUnit) (counts : Array Int64)
  /-- Strings of one encoding. -/
  | string (label : NodeLabel) (encoding : Encoding) (offsets : Array Nat) (data : Array UInt8)
  /-- Lists. -/
  | list (label : NodeLabel) (offsets : Array Nat) (content : Node) (isOpen : Bool)
  /-- Tuples. -/
  | tuple (label : NodeLabel) (slots : List Node) (length : Nat) (filling : Filling)
  /-- Records. -/
  | record (label : NodeLabel) (name : Option String) (fields : List (String × Node))
      (length : Nat) (filling : Filling) (settled declared : Bool)
  /-- Elements of several classes. -/
  | union (label : NodeLabel) (tags index : Array Nat) (children : List Node)
      (current : Option Nat)

namespace Node

/-! ### Labels and elements -/

/-- What the outermost node keeps. -/
def label : Node → NodeLabel
  | unknown l _ => l
  | option l _ _ => l
  | bool l _ => l
  | int64 l _ => l
  | float64 l _ => l
  | complex128 l _ => l
  | time l _ _ _ => l
  | string l _ _ _ => l
  | list l _ _ _ => l
  | tuple l _ _ _ => l
  | record l _ _ _ _ _ _ => l
  | union l _ _ _ _ => l

/-- The node with other annotations. -/
def withParameters (ps : Parameters) : Node → Node
  | unknown l nulls => unknown { l with parameters := ps } nulls
  | option l index content => option { l with parameters := ps } index content
  | bool l vs => bool { l with parameters := ps } vs
  | int64 l vs => int64 { l with parameters := ps } vs
  | float64 l vs => float64 { l with parameters := ps } vs
  | complex128 l vs => complex128 { l with parameters := ps } vs
  | time l kind unit vs => time { l with parameters := ps } kind unit vs
  | string l encoding offsets data => string { l with parameters := ps } encoding offsets data
  | list l offsets content isOpen => list { l with parameters := ps } offsets content isOpen
  | tuple l slots n filling => tuple { l with parameters := ps } slots n filling
  | record l name fields n filling settled declared =>
    record { l with parameters := ps } name fields n filling settled declared
  | union l tags index children current =>
    union { l with parameters := ps } tags index children current

/-- Sets an annotation. -/
def setParameter (n : Node) (name : String) (value : Document) : Node :=
  n.withParameters (assign n.label.parameters name value.sorted)

/-- The nodes of fields. -/
def nodesOf (fields : List (String × Node)) : List Node := fields.map Prod.snd

mutual

/-- The elements of a node. -/
def column : Node → Column
  | .unknown _ nulls => .unknown nulls
  | .option _ index content => .option index content.column
  | .bool _ vs => .bool vs
  | .int64 _ vs => .int64 vs
  | .float64 _ vs => .float64 vs
  | .complex128 _ vs => .complex128 vs
  | .time _ kind unit vs => .time kind unit vs
  | .string _ encoding offsets data => .string encoding offsets data
  | .list _ offsets content isOpen => .list offsets content.column isOpen
  | .tuple _ slots n filling => .tuple (columns slots) n filling
  | .record _ name fields n filling settled declared =>
    .record name (fieldColumns fields) n filling settled declared
  | .union _ tags index children current => .union tags index (columns children) current

/-- The elements of several nodes. -/
def columns : List Node → List Column
  | [] => []
  | n :: ns => n.column :: columns ns

/-- The elements of the nodes of fields. -/
def fieldColumns : List (String × Node) → List (String × Column)
  | [] => []
  | (key, n) :: rest => (key, n.column) :: fieldColumns rest

end

/-- The number of complete elements. -/
def length (n : Node) : Nat := n.column.length

/-- Whether a container opened here or below waits for its close. -/
def isActive (n : Node) : Bool := n.column.isActive

/-! ### New nodes -/

/-- A node of a number of missing elements. -/
def withNulls (o : Options) (nulls : Nat) : Node := .unknown ⟨o, []⟩ nulls

/-- A node without elements. -/
def new (o : Options) : Node := withNulls o 0

/-- A node of records of a name, without any: the declared fields are settled. -/
def emptyRecords (o : Options) (name : Option String) : Node :=
  match o.declaredFields? name with
  | some fields =>
    .record ⟨o, []⟩ name (tableOf (fields.map fun key => (key, new o))) 0 .closed true true
  | none => .record ⟨o, []⟩ name [] 0 .closed false false

/-- A node without elements, for those of the class that a push begins. -/
def empty (o : Options) : Push → Node
  | .bool _ => .bool ⟨o, []⟩ #[]
  | .int _ => .int64 ⟨o, []⟩ #[]
  | .real _ => .float64 ⟨o, []⟩ #[]
  | .complex _ => .complex128 ⟨o, []⟩ #[]
  | .time kind _ unit => .time ⟨o, []⟩ kind unit #[]
  | .string encoding _ => .string ⟨o, []⟩ encoding #[0] #[]
  | .beginList => .list ⟨o, []⟩ #[0] (new o) false
  | .beginTuple n => .tuple ⟨o, []⟩ (List.replicate n (new o)) 0 .closed
  | .beginRecord name => emptyRecords o name
  | _ => new o

/-! ### Elements of the own class -/

/-- The node of wider numbers that takes the place of a node of numbers for the sake of a push; it
takes over what that node kept.  Any other node stays. -/
def widened : Node → Push → Node
  | .int64 l vs, .real _ => .float64 ⟨l.options, l.parameters⟩ (vs.map Column.realOfInt)
  | .int64 l vs, .complex _ => .complex128 ⟨l.options, l.parameters⟩ (vs.map Column.complexOfInt)
  | .float64 l vs, .complex _ => .complex128 ⟨l.options, l.parameters⟩ (vs.map Complex.ofReal)
  | n, _ => n

/-- The node with one more element of its own class, or with one opened; a number that is too wide
for it changes nothing. -/
def append : Node → Push → Node
  | .bool l vs, .bool b => .bool l (vs.push b)
  | .int64 l vs, .int n => .int64 l (vs.push n)
  | .float64 l vs, .int n => .float64 l (vs.push (Column.realOfInt n))
  | .float64 l vs, .real x => .float64 l (vs.push x)
  | .complex128 l vs, .int n => .complex128 l (vs.push (Column.complexOfInt n))
  | .complex128 l vs, .real x => .complex128 l (vs.push (.ofReal x))
  | .complex128 l vs, .complex z => .complex128 l (vs.push z)
  | .time l kind unit vs, .time _ n _ => .time l kind unit (vs.push n)
  | .string l encoding offsets data, .string _ bytes =>
    let data := data ++ bytes
    .string l encoding (offsets.push data.size) data
  | .list l offsets content _, .beginList => .list l offsets content true
  | .tuple l slots n _, .beginTuple _ => .tuple l slots n (.filling none)
  | .record l name fields n _ settled declared, .beginRecord _ =>
    .record l name fields n (.filling none) settled declared
  | n, _ => n

/-- The node with one more element of its own class, or with one opened. -/
def accept (n : Node) (p : Push) : Node := (n.widened p).append p

/-! ### Taking the place of a node -/

/-- What takes the place of an unknown node when its first element comes.  A node without elements
takes over the annotations; if there are missing elements, the wrapper for these does. -/
def promote (l : NodeLabel) (nulls : Nat) (fresh : Node) : Node :=
  if nulls = 0 then fresh.withParameters l.parameters
  else .option ⟨l.options, l.parameters⟩ (Array.replicate nulls none) fresh

/-- An unknown node with its first element. -/
def withFirst (l : NodeLabel) (nulls : Nat) (p : Push) : Node :=
  match promote l nulls (empty l.options p) with
  | .option l index content => .option l (index.push (some content.length)) (content.accept p)
  | n => n.accept p

/-- A node whose elements may be missing, though none is.  The annotations move to it. -/
def wrapOption (n : Node) : Node :=
  .option ⟨n.label.options, n.label.parameters⟩ (Column.allPresent n.length) (n.withParameters [])

/-- A union of one class.  The annotations move to it. -/
def wrapUnion (n : Node) : Node :=
  .union ⟨n.label.options, n.label.parameters⟩ (Array.replicate n.length 0) (Array.range n.length)
    [n.withParameters []] none

/-- A node that is not open, with one more missing element. -/
def appendNull : Node → Node
  | .unknown l nulls => .unknown l (nulls + 1)
  | .option l index content => .option l (index.push none) content
  | n =>
    match n.wrapOption with
    | .option l index content => .option l (index.push none) content
    | n => n

/-- A union with one more element, the first one of a new class: a new node below it. -/
def addChild (l : NodeLabel) (tags index : Array Nat) (children : List Node) (p : Push) : Node :=
  let child := withFirst ⟨l.options, []⟩ 0 p
  .union l (tags.push children.length) (index.push 0) (children ++ [child])
    (if child.isActive then some children.length else none)

/-- A node joined by the first element of another class. -/
def joinedBy (n : Node) (p : Push) : Node :=
  match n.wrapUnion with
  | .union l tags index children _ => addChild l tags index children p
  | n => n

/-! ### Clearing -/

mutual

/-- The node without its elements; every node keeps what it kept. -/
def clear : Node → Node
  | .unknown l _ => .unknown l 0
  | .option l _ content => .option l #[] content.clear
  | .bool l _ => .bool l #[]
  | .int64 l _ => .int64 l #[]
  | .float64 l _ => .float64 l #[]
  | .complex128 l _ => .complex128 l #[]
  | .time l kind unit _ => .time l kind unit #[]
  | .string l encoding _ _ => .string l encoding #[0] #[]
  | .list l _ content _ => .list l #[0] content.clear false
  | .tuple l slots _ _ => .tuple l (clearAll slots) 0 .closed
  | .record l name fields _ _ _ declared =>
    .record l name (clearFields fields) 0 .closed declared declared
  | .union l _ _ children _ => .union l #[] #[] (clearAll children) none

/-- Clears several nodes. -/
def clearAll : List Node → List Node
  | [] => []
  | n :: ns => n.clear :: clearAll ns

/-- Clears the node of every field. -/
def clearFields : List (String × Node) → List (String × Node)
  | [] => []
  | (key, n) :: rest => (key, n.clear) :: clearFields rest

end

end Node

end Columnar
