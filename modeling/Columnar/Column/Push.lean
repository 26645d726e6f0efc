import Columnar.Column

/-!
# Pushing into a column

A push goes down the open containers to the place that is being filled, and there it does
one of a few things: a column takes an element of its own class; a number widens a column
of narrower numbers; the first missing element makes a column optional; and the first
element of another class makes it a union.  Nothing of what a column was is lost by that.

A refused push gives the column back.

New columns are made after the settings that come with the push; in `Node.push` they are
those that the node above has kept, and the elements are the same (`Node.column_push`).

## Main definitions

* `Column.admits`, `Column.accept` — the class of a column, and one more element of it.
* `Column.appendNull`, `Column.afterNulls` — missing elements after and before others.
* `Column.joinedBy`, `Column.addChild` — the first element of another class.
* `Column.push` — the outcome of a push.
* `Column.wrapOption`, `Column.wrapUnion` — a column wrapped without a push.
-/

namespace Columnar.Column

/-! ### Elements of the own class -/

/-- An integer as a real. -/
def realOfInt (n : Int64) : Binary64 := .ofInt n.toInt

/-- An integer as a complex number. -/
def complexOfInt (n : Int64) : Complex := .ofReal (realOfInt n)

/-- The column with one more element of its own class, or with one opened; a column of
another class stays as it is.  Of two kinds of numbers the wider one is the kind of the
result. -/
def accept : Column → Push → Column
  | .bool vs, .bool b => .bool (vs.push b)
  | .int64 vs, .int n => .int64 (vs.push n)
  | .int64 vs, .real x => .float64 ((vs.map realOfInt).push x)
  | .int64 vs, .complex z => .complex128 ((vs.map complexOfInt).push z)
  | .float64 vs, .int n => .float64 (vs.push (realOfInt n))
  | .float64 vs, .real x => .float64 (vs.push x)
  | .float64 vs, .complex z => .complex128 ((vs.map Complex.ofReal).push z)
  | .complex128 vs, .int n => .complex128 (vs.push (complexOfInt n))
  | .complex128 vs, .real x => .complex128 (vs.push (.ofReal x))
  | .complex128 vs, .complex z => .complex128 (vs.push z)
  | .time kind unit vs, .time _ n _ => .time kind unit (vs.push n)
  | .string encoding offsets data, .string _ bytes =>
    let data := data ++ bytes
    .string encoding (offsets.push data.size) data
  | .list offsets content _, .beginList => .list offsets content true
  | .tuple slots n _, .beginTuple _ => .tuple slots n (.filling none)
  | .record name fields n _ settled declared, .beginRecord _ =>
    .record name fields n (.filling none) settled declared
  | c, _ => c

/-- Whether a column that is no wrapper holds the elements of a class.  All numbers are of one
class. -/
def admits (k : ElementClass) : Column → Bool
  | .bool _ => k == .bool
  | .int64 _ => k == .number
  | .float64 _ => k == .number
  | .complex128 _ => k == .number
  | .time kind unit _ => k == .time kind unit
  | .string encoding _ _ => k == .string encoding
  | .list _ _ _ => k == .list
  | .tuple slots _ _ => k == .tuple slots.length
  | .record name _ _ _ _ _ => k == .record name
  | _ => false

/-! ### Wrapping -/

/-- The places of a number of elements that are all present. -/
def allPresent (n : Nat) : Array (Option Nat) := (Array.range n).map some

/-- A column whose elements may be missing, though none is. -/
def wrapOption (c : Column) : Column := .option (allPresent c.length) c

/-- A union of one class. -/
def wrapUnion (c : Column) : Column :=
  .union (Array.replicate c.length 0) (Array.range c.length) [c] none

/-- A column that is not open, with one more missing element. -/
def appendNull : Column → Column
  | .unknown n => .unknown (n + 1)
  | .option index content => .option (index.push none) content
  | c => .option ((allPresent c.length).push none) c

/-- A column of missing elements, with a first element that is not. -/
def afterNulls (nulls : Nat) (c : Column) : Column :=
  if nulls = 0 then c else .option ((Array.replicate nulls none).push (some 0)) c

/-- The child of a union in which an element was opened. -/
def openChild (tag : Nat) (c : Column) : Option Nat := if c.isActive then some tag else none

/-- A union with one more element, the first one of a new class. -/
def addChild (tags index : Array Nat) (children : List Column) (c : Column) : Column :=
  .union (tags.push children.length) (index.push 0) (children ++ [c])
    (openChild children.length c)

/-- A column joined by the first element of another class. -/
def joinedBy (c other : Column) : Column :=
  addChild (Array.replicate c.length 0) (Array.range c.length) [c] other

/-! ### Slots -/

/-- The number of complete elements of the column at a place. -/
def lengthAt : List Column → Nat → Nat
  | [], _ => 0
  | c :: _, 0 => c.length
  | _ :: cs, i + 1 => lengthAt cs i

/-- Whether the column at a place is open. -/
def isActiveAt : List Column → Nat → Bool
  | [], _ => false
  | c :: _, 0 => c.isActive
  | _ :: cs, i + 1 => isActiveAt cs i

/-- Whether the column at the selected place is open. -/
def isSlotActive (slots : List Column) (filling : Filling) : Bool :=
  match filling.slot? with
  | some i => isActiveAt slots i
  | none => false

/-- The columns of fields. -/
def columnsOf (fields : List (String × Column)) : List Column := fields.map Prod.snd

/-- A slot with an element for row `row`: a missing one if it has none yet. -/
def fillSlot (row : Nat) (c : Column) : Column := if c.length = row then c.appendNull else c

/-- All slots with an element for row `row`. -/
def fillSlots (row : Nat) (slots : List Column) : List Column := slots.map (fillSlot row)

/-- All fields with an element for row `row`. -/
def fillFields (row : Nat) (fields : List (String × Column)) : List (String × Column) :=
  fields.map fun (key, c) => (key, fillSlot row c)

/-- The place of a key. -/
def fieldIndex? (fields : List (String × Column)) (key : String) : Option Nat :=
  fields.findIdx? fun f => f.1 == key

/-! ### Refusals -/

/-- The refusal of a push by a column, which stays as it is. -/
def refuse (c : Column) (p : Push) (cause : PushCause) : Pushed Column :=
  .error ⟨c, ⟨p.word, cause⟩⟩

/-- Why a push that begins no element is refused where no container is open. -/
def idleCause (p : Push) : PushCause :=
  match p.closes? with
  | some container => .closeWithoutOpen container
  | none => .selectorOutside (p.selects?.getD .list)

/-- Whether a push that fills no slot of an open tuple or record may pass to the selected
slot, and why it may not.  `length` is that of the column, `slots` its slots and `nameOf`
gives the name of a slot. -/
def slotCause? (p : Push) (container : Container) (slots : List Column) (length : Nat)
    (filling : Filling) (nameOf : Nat → String) : Option PushCause :=
  match filling.slot? with
  | none =>
    match p.closes? with
    | some other => some (.closeWithoutOpen other)
    | none => some (.noSlotSelected container)
  | some i =>
    if p.closes?.isNone ∧ ¬ isActiveAt slots i ∧ length < lengthAt slots i then
      some (.slotAlreadyFilled (nameOf i))
    else none

/-- The outcome of selecting a slot of an open tuple, none of whose slots is open. -/
def selectSlot (slots : List Column) (length : Nat) (filling : Filling) (i : Nat) :
    Pushed Column :=
  if slots.length ≤ i then
    refuse (.tuple slots length filling) (.index i) (.indexOutOfRange i slots.length)
  else if length < lengthAt slots i then
    refuse (.tuple slots length filling) (.index i) (.slotAlreadyFilled (toString i))
  else .ok (.tuple slots length (.filling (some i)))

/-- The outcome of selecting a field of an open record, none of whose fields is open.  A new
field has had a missing element in every record so far. -/
def selectField (name : Option String) (fields : List (String × Column)) (length : Nat)
    (filling : Filling) (settled declared : Bool) (key : String) (check : Bool) : Pushed Column :=
  match fieldIndex? fields key with
  | some i =>
    if length < lengthAt (columnsOf fields) i then
      refuse (.record name fields length filling settled declared) (.field key check)
        (.slotAlreadyFilled key)
    else .ok (.record name fields length (.filling (some i)) settled declared)
  | none =>
    if check && settled then
      refuse (.record name fields length filling settled declared) (.field key check)
        (.unknownField key name (fields.map Prod.fst))
    else
      .ok (.record name (fields ++ [(key, .unknown length)]) length
        (.filling (some fields.length)) settled declared)

/-- The outcome of a push into a column that is neither open nor a wrapper. -/
def pushClosed (o : Options) (c : Column) (p : Push) : Pushed Column :=
  match p with
  | .null => .ok c.appendNull
  | p =>
    match p.elementClass? with
    | some k => if admits k c then .ok (c.accept p) else .ok (c.joinedBy (first o p))
    | none => refuse c p (idleCause p)

/-! ### The outcome of a push -/

mutual

/-- The outcome of a push into a column. -/
def push (o : Options) : Column → Push → Pushed Column
  -- a bad unit is refused before it is known where the element would go
  | c, .unknownUnit kind code => refuse c (.unknownUnit kind code) (.invalidTimeUnit code)
  | .unknown n, p =>
    match p with
    | .null => .ok (.unknown (n + 1))
    | p =>
      match p.elementClass? with
      | some _ => .ok (afterNulls n (first o p))
      | none => refuse (.unknown n) p (idleCause p)
  | .option index content, p =>
    if content.isActive then (push o content p).inside (.option index)
    else
      match p with
      | .null => .ok (.option (index.push none) content)
      | p =>
        match p.elementClass? with
        | none => refuse (.option index content) p (idleCause p)
        | some _ =>
          -- the place is that of an element not yet pushed
          let place := content.length
          match push o content p with
          | .ok content => .ok (.option (index.push (some place)) content)
          | .error r => .error ⟨.option index r.state, r.error⟩
  | .list offsets content true, p =>
    -- the end concerns this list unless another container is open inside it
    if p = .endList ∧ ¬ content.isActive then
      .ok (.list (offsets.push content.length) content false)
    else (push o content p).inside fun content => .list offsets content true
  | .tuple slots length (.filling slot), p =>
    if isSlotActive slots (.filling slot) then
      (pushAt o slots (slot.getD 0) p).inside fun slots => .tuple slots length (.filling slot)
    else
      match p with
      | .index i => selectSlot slots length (.filling slot) i
      | .endTuple => .ok (.tuple (fillSlots length slots) (length + 1) .closed)
      | p =>
        match slotCause? p .tuple slots length (.filling slot) toString with
        | some cause => refuse (.tuple slots length (.filling slot)) p cause
        | none =>
          (pushAt o slots (slot.getD 0) p).inside fun slots => .tuple slots length (.filling slot)
  | .record name fields length (.filling slot) settled declared, p =>
    if isSlotActive (columnsOf fields) (.filling slot) then
      (pushField o fields (slot.getD 0) p).inside fun fields =>
        .record name fields length (.filling slot) settled declared
    else
      match p with
      | .field key check =>
        selectField name fields length (.filling slot) settled declared key check
      | .endRecord =>
        .ok (.record name (fillFields length fields) (length + 1) .closed true declared)
      | p =>
        match slotCause? p .record (columnsOf fields) length (.filling slot)
            (fun i => (fields[i]?.map Prod.fst).getD "") with
        | some cause => refuse (.record name fields length (.filling slot) settled declared) p cause
        | none =>
          (pushField o fields (slot.getD 0) p).inside fun fields =>
            .record name fields length (.filling slot) settled declared
  | .union tags index children (some tag), p =>
    -- a child that refuses a push is as it was, so it is open still
    match pushAt o children tag p with
    | .ok children =>
      .ok (.union tags index children (if isActiveAt children tag then some tag else none))
    | .error r => .error ⟨.union tags index r.state (some tag), r.error⟩
  | .union tags index children none, p =>
    match p.elementClass? with
    | none => pushClosed o (.union tags index children none) p
    | some k =>
      match children.findIdx? (admits k) with
      | some tag =>
        -- the place is the length before the push; a refused push leaves no trace of it
        let place := lengthAt children tag
        match pushAt o children tag p with
        | .ok children =>
          .ok (.union (tags.push tag) (index.push place) children
            (if isActiveAt children tag then some tag else none))
        | .error r => .error ⟨.union tags index r.state none, r.error⟩
      | none =>
        -- a new class takes a new child
        if maxUnionKinds ≤ children.length then
          refuse (.union tags index children none) p .unionOverflow
        else .ok (addChild tags index children (first o p))
  | c, p => pushClosed o c p

/-- The outcome of a push into the column at a place; nothing happens past the last one. -/
def pushAt (o : Options) : List Column → Nat → Push → Pushed (List Column)
  | [], _, _ => .ok []
  | c :: cs, 0, p => (push o c p).inside (· :: cs)
  | c :: cs, i + 1, p => (pushAt o cs i p).inside (c :: ·)

/-- The outcome of a push into the column of the field at a place. -/
def pushField (o : Options) :
    List (String × Column) → Nat → Push → Pushed (List (String × Column))
  | [], _, _ => .ok []
  | (key, c) :: rest, 0, p => (push o c p).inside fun c => (key, c) :: rest
  | f :: rest, i + 1, p => (pushField o rest i p).inside (f :: ·)

end

end Columnar.Column
