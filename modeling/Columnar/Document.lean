import Columnar.Binary64

/-!
# Documents

A document is a JSON value held as data.  Annotations of a form are documents, and a form
itself is read from one and written as one.  Members of an object keep their order, except
where a document is brought into sorted order, in which every key stands once.

## Main definitions

* `Document` — the type.
* `Document.sorted` — the same document with the members of every object sorted by key, the
  last of repeated keys winning.
* `Document.same` — numeric equality of documents.
* `Document.size` — the number of values of a document, and of its items and members.
* `assign`, `lookup` — an ordered table of named things.
-/

namespace Columnar

/-! ### Ordered tables -/

/-- Sets the entry of a key: an existing key keeps its place, a new one comes last. -/
def assign {α : Type} : List (String × α) → String → α → List (String × α)
  | [], key, value => [(key, value)]
  | (k, v) :: rest, key, value =>
    if k = key then (k, value) :: rest else (k, v) :: assign rest key value

/-- The entry of a key. -/
def lookup {α : Type} : List (String × α) → String → Option α
  | [], _ => none
  | (k, v) :: rest, key => if k = key then some v else lookup rest key

@[simp] theorem lookup_nil {α : Type} (key : String) :
    lookup ([] : List (String × α)) key = none := rfl

theorem lookup_assign_self {α : Type} (t : List (String × α)) (key : String) (value : α) :
    lookup (assign t key value) key = some value := by
  induction t with
  | nil => simp [assign, lookup]
  | cons e rest ih =>
    obtain ⟨k, v⟩ := e
    by_cases h : k = key <;> simp [assign, lookup, h, ih]

theorem lookup_assign_of_ne {α : Type} (t : List (String × α)) {key other : String}
    (value : α) (h : key ≠ other) : lookup (assign t key value) other = lookup t other := by
  induction t with
  | nil => simp [assign, lookup, h]
  | cons e rest ih =>
    obtain ⟨k, v⟩ := e
    by_cases hk : k = key
    · subst hk; simp [assign, lookup, h]
    · by_cases ho : k = other
      · subst ho; simp [assign, lookup, hk]
      · simp [assign, lookup, hk, ho, ih]

/-- A table made of entries in order, each set after the ones before it. -/
def tableOf {α : Type} (entries : List (String × α)) : List (String × α) :=
  entries.foldl (fun t e => assign t e.1 e.2) []

/-! ### Documents -/

/-- A JSON value. -/
inductive Document
  /-- The word `null`. -/
  | null
  /-- `true` or `false`. -/
  | bool (b : Bool)
  /-- A whole number written without fraction and exponent. -/
  | int (n : Int)
  /-- Any other number. -/
  | real (x : Binary64)
  /-- A string. -/
  | string (s : String)
  /-- An array. -/
  | array (items : List Document)
  /-- An object, its members in order. -/
  | object (members : List (String × Document))
  deriving Inhabited

namespace Document

/-- Adds a member to members sorted by key, unless its key is there already. -/
def insertNew (key : String) (value : Document) :
    List (String × Document) → List (String × Document)
  | [] => [(key, value)]
  | (k, v) :: rest =>
    if key < k then (key, value) :: (k, v) :: rest
    else if k = key then (k, v) :: rest
    else (k, v) :: insertNew key value rest

mutual

/-- The document with the members of every object sorted by key. -/
def sorted : Document → Document
  | .array items => .array (sortedItems items)
  | .object members => .object (sortedMembers members)
  | .null => .null
  | .bool b => .bool b
  | .int n => .int n
  | .real x => .real x
  | .string s => .string s

/-- Every item sorted. -/
def sortedItems : List Document → List Document
  | [] => []
  | x :: xs => sorted x :: sortedItems xs

/-- Sorted members; the later of two members with one key stays. -/
def sortedMembers : List (String × Document) → List (String × Document)
  | [] => []
  | (k, v) :: rest => insertNew k (sorted v) (sortedMembers rest)

end

mutual

/-- Equality of documents, in which reals are compared as numbers. -/
def same : Document → Document → Bool
  | .null, .null => true
  | .bool a, .bool b => a == b
  | .int a, .int b => a == b
  | .real a, .real b => a.numEq b
  | .string a, .string b => a == b
  | .array a, .array b => sameItems a b
  | .object a, .object b => sameMembers a b
  | _, _ => false

/-- Equality item by item. -/
def sameItems : List Document → List Document → Bool
  | [], [] => true
  | x :: xs, y :: ys => same x y && sameItems xs ys
  | _, _ => false

/-- Equality member by member, in order. -/
def sameMembers : List (String × Document) → List (String × Document) → Bool
  | [], [] => true
  | (k, x) :: xs, (l, y) :: ys => k == l && same x y && sameMembers xs ys
  | _, _ => false

end

mutual

/-- The size of a document: one, and one for every item or member beside its own size. -/
def size : Document → Nat
  | .array items => 1 + itemsSize items
  | .object members => 1 + membersSize members
  | .null => 1
  | .bool _ => 1
  | .int _ => 1
  | .real _ => 1
  | .string _ => 1

/-- The size of several items. -/
def itemsSize : List Document → Nat
  | [] => 0
  | x :: xs => 1 + size x + itemsSize xs

/-- The size of several members. -/
def membersSize : List (String × Document) → Nat
  | [] => 0
  | (_, x) :: rest => 1 + size x + membersSize rest

end

/-- The text of a string document. -/
def asString? : Document → Option String
  | .string s => some s
  | _ => none

end Document

/-- Annotations: documents under names, in the order in which the names were first set. -/
abbrev Parameters := List (String × Document)

end Columnar
