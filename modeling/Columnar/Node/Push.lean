import Columnar.Node

/-!
# Pushing into a node

A push goes through the nodes as it goes through a column, and every node on the way is replaced
by the one that comes back.  Whether it is refused depends on the elements alone; the settings
that are needed for new nodes are those that the node above keeps a copy of.

## Main definitions

* `Node.push` — the outcome of a push.
-/

namespace Columnar.Node

open Column (slotCause? isSlotActive isActiveAt lengthAt idleCause)

/-- The refusal of a push by a node, which stays as it is. -/
def refuse (n : Node) (p : Push) (cause : PushCause) : Pushed Node := .error ⟨n, ⟨p.word, cause⟩⟩

/-! ### Slots -/

/-- A slot with an element for row `row`: a missing one if it has none yet. -/
def fillSlot (row : Nat) (n : Node) : Node := if n.length = row then n.appendNull else n

/-- All slots with an element for row `row`. -/
def fillSlots (row : Nat) (slots : List Node) : List Node := slots.map (fillSlot row)

/-- All fields with an element for row `row`. -/
def fillFields (row : Nat) (fields : List (String × Node)) : List (String × Node) :=
  fields.map fun (key, n) => (key, fillSlot row n)

/-- The place of a key. -/
def fieldIndex? (fields : List (String × Node)) (key : String) : Option Nat :=
  fields.findIdx? fun f => f.1 == key

/-- The outcome of selecting a slot of an open tuple, none of whose slots is open. -/
def selectSlot (l : NodeLabel) (slots : List Node) (length : Nat) (filling : Filling) (i : Nat) :
    Pushed Node :=
  if slots.length ≤ i then
    refuse (.tuple l slots length filling) (.index i) (.indexOutOfRange i slots.length)
  else if length < lengthAt (columns slots) i then
    refuse (.tuple l slots length filling) (.index i) (.slotAlreadyFilled (toString i))
  else .ok (.tuple l slots length (.filling (some i)))

/-- The outcome of selecting a field of an open record, none of whose fields is open.  The node of
a new field has had a missing element in every record so far. -/
def selectField (l : NodeLabel) (name : Option String) (fields : List (String × Node))
    (length : Nat) (filling : Filling) (settled declared : Bool) (key : String) (check : Bool) :
    Pushed Node :=
  match fieldIndex? fields key with
  | some i =>
    if length < lengthAt (columns (nodesOf fields)) i then
      refuse (.record l name fields length filling settled declared) (.field key check)
        (.slotAlreadyFilled key)
    else .ok (.record l name fields length (.filling (some i)) settled declared)
  | none =>
    if check && settled then
      refuse (.record l name fields length filling settled declared) (.field key check)
        (.unknownField key name (fields.map Prod.fst))
    else
      .ok (.record l name (fields ++ [(key, withNulls l.options length)]) length
        (.filling (some fields.length)) settled declared)

/-! ### The outcome of a push -/

/-- The outcome of a push into a node that is neither open nor a wrapper. -/
def pushClosed (n : Node) (p : Push) : Pushed Node :=
  match p with
  | .null => .ok n.appendNull
  | p =>
    match p.elementClass? with
    | some k => if n.column.admits k then .ok (n.accept p) else .ok (n.joinedBy p)
    | none => refuse n p (idleCause p)

mutual

/-- The outcome of a push into a node. -/
def push : Node → Push → Pushed Node
  | n, .unknownUnit kind code => refuse n (.unknownUnit kind code) (.invalidTimeUnit code)
  | .unknown l nulls, p =>
    match p with
    | .null => .ok (.unknown l (nulls + 1))
    | p =>
      match p.elementClass? with
      | some _ => .ok (withFirst l nulls p)
      | none => refuse (.unknown l nulls) p (idleCause p)
  | .option l index content, p =>
    if content.isActive then (push content p).inside (.option l index)
    else
      match p with
      | .null => .ok (.option l (index.push none) content)
      | p =>
        match p.elementClass? with
        | none => refuse (.option l index content) p (idleCause p)
        | some _ =>
          let place := content.length
          match push content p with
          | .ok content => .ok (.option l (index.push (some place)) content)
          | .error r => .error ⟨.option l index r.state, r.error⟩
  | .list l offsets content true, p =>
    if p = .endList ∧ ¬ content.isActive then
      .ok (.list l (offsets.push content.length) content false)
    else (push content p).inside fun content => .list l offsets content true
  | .tuple l slots length (.filling slot), p =>
    if isSlotActive (columns slots) (.filling slot) then
      (pushAt slots (slot.getD 0) p).inside fun slots => .tuple l slots length (.filling slot)
    else
      match p with
      | .index i => selectSlot l slots length (.filling slot) i
      | .endTuple => .ok (.tuple l (fillSlots length slots) (length + 1) .closed)
      | p =>
        match slotCause? p .tuple (columns slots) length (.filling slot) toString with
        | some cause => refuse (.tuple l slots length (.filling slot)) p cause
        | none =>
          (pushAt slots (slot.getD 0) p).inside fun slots => .tuple l slots length (.filling slot)
  | .record l name fields length (.filling slot) settled declared, p =>
    if isSlotActive (columns (nodesOf fields)) (.filling slot) then
      (pushField fields (slot.getD 0) p).inside fun fields =>
        .record l name fields length (.filling slot) settled declared
    else
      match p with
      | .field key check =>
        selectField l name fields length (.filling slot) settled declared key check
      | .endRecord =>
        .ok (.record l name (fillFields length fields) (length + 1) .closed true declared)
      | p =>
        match slotCause? p .record (columns (nodesOf fields)) length (.filling slot)
            (fun i => (fields[i]?.map Prod.fst).getD "") with
        | some cause =>
          refuse (.record l name fields length (.filling slot) settled declared) p cause
        | none =>
          (pushField fields (slot.getD 0) p).inside fun fields =>
            .record l name fields length (.filling slot) settled declared
  | .union l tags index children (some tag), p =>
    -- whether the child is still open is asked of it anew, also after a refusal
    let stillOpen := fun children => if isActiveAt (columns children) tag then some tag else none
    (pushAt children tag p).inside fun children =>
      .union l tags index children (stillOpen children)
  | .union l tags index children none, p =>
    match p.elementClass? with
    | none => pushClosed (.union l tags index children none) p
    | some k =>
      match children.findIdx? (fun n => n.column.admits k) with
      | some tag =>
        let place := lengthAt (columns children) tag
        match pushAt children tag p with
        | .ok children =>
          .ok (.union l (tags.push tag) (index.push place) children
            (if isActiveAt (columns children) tag then some tag else none))
        | .error r => .error ⟨.union l tags index r.state none, r.error⟩
      | none =>
        if maxUnionKinds ≤ children.length then
          refuse (.union l tags index children none) p .unionOverflow
        else .ok (addChild l tags index children p)
  | n, p => pushClosed n p

/-- The outcome of a push into the node at a place; nothing happens past the last one. -/
def pushAt : List Node → Nat → Push → Pushed (List Node)
  | [], _, _ => .ok []
  | n :: ns, 0, p => (push n p).inside (· :: ns)
  | n :: ns, i + 1, p => (pushAt ns i p).inside (n :: ·)

/-- The outcome of a push into the node of the field at a place. -/
def pushField : List (String × Node) → Nat → Push → Pushed (List (String × Node))
  | [], _, _ => .ok []
  | (key, n) :: rest, 0, p => (push n p).inside fun n => (key, n) :: rest
  | f :: rest, i + 1, p => (pushField rest i p).inside (f :: ·)

end

/-- A bad unit is refused before it is known where the element would go. -/
theorem push_unknownUnit (n : Node) (kind : TimeKind) (code : String) :
    n.push (.unknownUnit kind code)
      = refuse n (.unknownUnit kind code) (.invalidTimeUnit code) := by
  rw [push]

end Columnar.Node
