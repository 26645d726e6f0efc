import Columnar.Proofs.Column.Sound
import Columnar.Proofs.Level

/-!
# What a push does to a column

A push that is not refused does one of a few things to a column, or does it to the child
that is being filled.  The rules are stated once, as a relation between the column before
and the column after, and what is claimed of every push is proved by cases or by induction
over them.

## Main definitions

* `Column.Takes` — a push takes one column to another.

## Main results

* `Column.takes_of_push` — an accepted push into a sound column follows one of the rules.
-/

namespace Columnar.Column

/-- The child of a union that is open, of the one that a push went to. -/
def openTag (tag : Nat) (c : Column) : Option Nat := if c.isActive then some tag else none

/-- A push takes one column to another. -/
inductive Takes (o : Options) : Column → Push → Column → Prop
  /-- One more missing element among missing ones. -/
  | unknown_null (n : Nat) : Takes o (.unknown n) .null (.unknown (n + 1))
  /-- The first element that is not missing. -/
  | unknown_first (n : Nat) {p : Push} {k : ElementClass} (hp : p.elementClass? = some k) :
      Takes o (.unknown n) p (afterNulls n (first o p))
  /-- A missing element of an optional column. -/
  | option_null {index : Array (Option Nat)} {content : Column} (hc : content.isActive = false) :
      Takes o (.option index content) .null (.option (index.push none) content)
  /-- An element of an optional column that is not missing. -/
  | option_present {index : Array (Option Nat)} {content content' : Column} {p : Push}
      {k : ElementClass} (hc : content.isActive = false) (hp : p.elementClass? = some k)
      (h : Takes o content p content') :
      Takes o (.option index content) p (.option (index.push (some content.length)) content')
  /-- A push into the open element of an optional column. -/
  | option_open {index : Array (Option Nat)} {content content' : Column} {p : Push}
      (hc : content.isActive = true) (h : Takes o content p content') :
      Takes o (.option index content) p (.option index content')
  /-- The first missing element of a column of present ones. -/
  | first_null {c : Column} (hc : c.isActive = false) (hu : c.kind ≠ .unknown)
      (ho : c.kind ≠ .option) :
      Takes o c .null (.option ((allPresent c.length).push none) c)
  /-- An element of the class of the column. -/
  | own {c : Column} {p : Push} {k : ElementClass} (hc : c.isActive = false)
      (hp : p.elementClass? = some k) (hk : c.class? = some k) : Takes o c p (c.accept p)
  /-- The first element of another class. -/
  | other {c : Column} {p : Push} {k k' : ElementClass} (hc : c.isActive = false)
      (hp : p.elementClass? = some k) (hk : c.class? = some k') (hne : k' ≠ k) :
      Takes o c p (c.joinedBy (first o p))
  /-- The end of an open list. -/
  | list_end {offsets : Array Nat} {content : Column} (hc : content.isActive = false) :
      Takes o (.list offsets content true) .endList
        (.list (offsets.push content.length) content false)
  /-- A push into the items of an open list. -/
  | list_item {offsets : Array Nat} {content content' : Column} {p : Push}
      (h : Takes o content p content') :
      Takes o (.list offsets content true) p (.list offsets content' true)
  /-- The choice of a slot of an open tuple. -/
  | tuple_index {slots : List Column} {n : Nat} {slot : Option Nat} {i : Nat} {c : Column}
      (hs : isSlotActive slots (.filling slot) = false) (hc : slots[i]? = some c)
      (hlen : c.length ≤ n) :
      Takes o (.tuple slots n (.filling slot)) (.index i) (.tuple slots n (.filling (some i)))
  /-- The end of an open tuple. -/
  | tuple_end {slots : List Column} {n : Nat} {slot : Option Nat}
      (hs : isSlotActive slots (.filling slot) = false) :
      Takes o (.tuple slots n (.filling slot)) .endTuple
        (.tuple (fillSlots n slots) (n + 1) .closed)
  /-- A push into the selected slot of an open tuple. -/
  | tuple_slot {slots : List Column} {n i : Nat} {c c' : Column} {p : Push}
      (hc : slots[i]? = some c) (hlen : c.length ≤ n) (h : Takes o c p c') :
      Takes o (.tuple slots n (.filling (some i))) p
        (.tuple (slots.set i c') n (.filling (some i)))
  /-- The choice of a field that an open record has. -/
  | record_field {name : Option String} {fields : List (String × Column)} {n : Nat}
      {slot : Option Nat} {settled declared : Bool} {key : String} {check : Bool} {i : Nat}
      {c : Column} (hs : isSlotActive (columnsOf fields) (.filling slot) = false)
      (hi : fieldIndex? fields key = some i) (hc : (columnsOf fields)[i]? = some c)
      (hlen : c.length ≤ n) :
      Takes o (.record name fields n (.filling slot) settled declared) (.field key check)
        (.record name fields n (.filling (some i)) settled declared)
  /-- The choice of a new field of an open record. -/
  | record_new {name : Option String} {fields : List (String × Column)} {n : Nat}
      {slot : Option Nat} {settled declared : Bool} {key : String} {check : Bool}
      (hs : isSlotActive (columnsOf fields) (.filling slot) = false)
      (hi : fieldIndex? fields key = none) (hcheck : (check && settled) = false) :
      Takes o (.record name fields n (.filling slot) settled declared) (.field key check)
        (.record name (fields ++ [(key, .unknown n)]) n (.filling (some fields.length))
          settled declared)
  /-- The end of an open record. -/
  | record_end {name : Option String} {fields : List (String × Column)} {n : Nat}
      {slot : Option Nat} {settled declared : Bool}
      (hs : isSlotActive (columnsOf fields) (.filling slot) = false) :
      Takes o (.record name fields n (.filling slot) settled declared) .endRecord
        (.record name (fillFields n fields) (n + 1) .closed true declared)
  /-- A push into the selected field of an open record. -/
  | record_slot {name : Option String} {fields : List (String × Column)} {n i : Nat}
      {settled declared : Bool} {c c' : Column} {p : Push}
      (hc : (columnsOf fields)[i]? = some c) (hlen : c.length ≤ n) (h : Takes o c p c') :
      Takes o (.record name fields n (.filling (some i)) settled declared) p
        (.record name (setField fields i c') n (.filling (some i)) settled declared)
  /-- An element of a class of a union. -/
  | union_own {tags index : Array Nat} {children : List Column} {tag : Nat} {c c' : Column}
      {p : Push} {k : ElementClass} (hp : p.elementClass? = some k)
      (ht : children.findIdx? (admits k) = some tag) (hc : children[tag]? = some c)
      (h : Takes o c p c') :
      Takes o (.union tags index children none) p
        (.union (tags.push tag) (index.push c.length) (children.set tag c') (openTag tag c'))
  /-- The first element of a class that a union has not. -/
  | union_new {tags index : Array Nat} {children : List Column} {p : Push} {k : ElementClass}
      (hp : p.elementClass? = some k) (ht : children.findIdx? (admits k) = none)
      (hlt : children.length < maxUnionKinds) :
      Takes o (.union tags index children none) p (addChild tags index children (first o p))
  /-- A push into the open child of a union. -/
  | union_open {tags index : Array Nat} {children : List Column} {tag : Nat} {c c' : Column}
      {p : Push} (hc : children[tag]? = some c) (h : Takes o c p c') :
      Takes o (.union tags index children (some tag)) p
        (.union tags index (children.set tag c') (openTag tag c'))

/-! ### Accepted pushes -/

theorem refuse_ne_ok {c c' : Column} {p : Push} {cause : PushCause} : refuse c p cause ≠ .ok c' :=
  nofun

theorem inside_eq_ok {α β : Type} {f : α → β} {x : Pushed α} {b : β}
    (h : x.inside f = .ok b) : ∃ a, x = .ok a ∧ f a = b := by
  cases x with
  | ok a => exact ⟨a, rfl, Except.ok.inj h⟩
  | error r => cases h

theorem openTag_set {cs : List Column} {i : Nat} {c c' : Column} (hc : cs[i]? = some c) :
    (if isActiveAt (cs.set i c') i then some i else none) = openTag i c' := by
  rw [isActiveAt_eq, getElem?_set_of_getElem? hc c']
  rfl

theorem appendNull_of_kind {c : Column} (hu : c.kind ≠ .unknown) (ho : c.kind ≠ .option) :
    c.appendNull = .option ((allPresent c.length).push none) c := by
  cases c with
  | unknown n => exact absurd rfl hu
  | option index content => exact absurd rfl ho
  | _ => rfl

/-- A column is unknown, or optional, or neither. -/
theorem kind_cases (c : Column) :
    (∃ n, c = .unknown n) ∨ (∃ index content, c = .option index content) ∨
      c.kind ≠ .unknown ∧ c.kind ≠ .option := by
  cases c with
  | unknown n => exact .inl ⟨n, rfl⟩
  | option index content => exact .inr (.inl ⟨index, content, rfl⟩)
  | time kind unit counts => cases kind <;> simp [kind]
  | _ => simp [kind]

theorem kind_ne_of_class? {c : Column} {k : ElementClass} (h : c.class? = some k) :
    c.kind ≠ .unknown ∧ c.kind ≠ .option ∧ c.kind ≠ .union := by
  cases c with
  | unknown | option | union => cases h
  | time kind unit counts => cases kind <;> exact ⟨nofun, nofun, nofun⟩
  | _ => exact ⟨nofun, nofun, nofun⟩

/-- A column that is neither open nor a wrapper holds the elements of a class. -/
theorem exists_class {c : Column} (hu : ∀ n, c ≠ .unknown n)
    (ho : ∀ index content, c ≠ .option index content)
    (hl : ∀ offsets content, c ≠ .list offsets content true)
    (ht : ∀ slots n slot, c ≠ .tuple slots n (.filling slot))
    (hr : ∀ name fields n slot settled declared,
      c ≠ .record name fields n (.filling slot) settled declared)
    (hus : ∀ tags index children tag, c ≠ .union tags index children (some tag))
    (hun : ∀ tags index children, c ≠ .union tags index children none) :
    c.isActive = false ∧ ∃ k, c.class? = some k := by
  cases c with
  | unknown n => exact absurd rfl (hu n)
  | option index content => exact absurd rfl (ho index content)
  | list offsets content isOpen =>
    cases isOpen with
    | true => exact absurd rfl (hl offsets content)
    | false => exact ⟨rfl, _, rfl⟩
  | tuple slots n filling =>
    cases filling with
    | filling slot => exact absurd rfl (ht slots n slot)
    | closed => exact ⟨rfl, _, rfl⟩
  | record name fields n filling settled declared =>
    cases filling with
    | filling slot => exact absurd rfl (hr name fields n slot settled declared)
    | closed => exact ⟨rfl, _, rfl⟩
  | union tags index children current =>
    cases current with
    | some tag => exact absurd rfl (hus tags index children tag)
    | none => exact absurd rfl (hun tags index children)
  | _ => exact ⟨rfl, _, rfl⟩

variable {o : Options} {p : Push}

theorem takes_of_pushClosed {c c' : Column} (hc : c.isActive = false) {k : ElementClass}
    (hk : c.class? = some k) (h : pushClosed o c p = .ok c') : Takes o c p c' := by
  unfold pushClosed at h
  split at h
  · obtain ⟨hu, ho, -⟩ := kind_ne_of_class? hk
    cases h
    rw [appendNull_of_kind hu ho]
    exact .first_null hc hu ho
  · split at h
    · next k' hp =>
      split at h
      · next ha =>
        cases h
        exact .own hc hp (admits_iff.mp ha)
      · next ha =>
        cases h
        refine .other hc hp hk ?_
        rintro rfl
        exact ha (admits_iff.mpr hk)
    · exact absurd h refuse_ne_ok

/-- What a column without an open element takes is a missing element, or begins one. -/
theorem Takes.begins {c c' : Column} (h : Takes o c p c') (hc : c.isActive = false) :
    p.Begins := by
  cases h with
  | unknown_null => exact .inl rfl
  | option_null => exact .inl rfl
  | first_null => exact .inl rfl
  | unknown_first n hp => exact .inr ⟨_, hp⟩
  | option_present _ hp => exact .inr ⟨_, hp⟩
  | own _ hp => exact .inr ⟨_, hp⟩
  | other _ hp => exact .inr ⟨_, hp⟩
  | union_own hp => exact .inr ⟨_, hp⟩
  | union_new hp => exact .inr ⟨_, hp⟩
  | option_open ha => rw [isActive, ha] at hc; cases hc
  | _ => cases hc

/-- A push passes to the selected slot of an open tuple or record. -/
def Passes (p : Push) (container : Container) (slots : List Column) (n : Nat)
    (slot : Option Nat) (nameOf : Nat → String) : Prop :=
  isSlotActive slots (.filling slot) = true ∨
    slotCause? p container slots n (.filling slot) nameOf = none

/-- The slot to which a push passes is one that was selected. -/
theorem Passes.exists_slot {container : Container} {slots : List Column} {n : Nat}
    {slot : Option Nat} {nameOf : Nat → String} (h : Passes p container slots n slot nameOf)
    (hs : SlotsSound slots n (.filling slot)) : ∃ i c, slot = some i ∧ slots[i]? = some c := by
  cases slot with
  | none =>
    simp only [Passes, isSlotActive, slotCause?, Filling.slot?] at h
    split at h <;> simp at h
  | some i =>
    have hi := hs.selected i rfl
    exact ⟨i, slots[i], rfl, List.getElem?_eq_getElem hi⟩

/-- If the selected slot takes what passes to it, it has no element for this row. -/
theorem Passes.length_le {container : Container} {slots : List Column} {n i : Nat}
    {nameOf : Nat → String} {c c' : Column}
    (h : Passes p container slots n (some i) nameOf)
    (hs : SlotsSound slots n (.filling (some i))) (hc : slots[i]? = some c)
    (ht : Takes o c p c') : c.length ≤ n := by
  cases ha : c.isActive with
  | true => exact Nat.le_of_eq (hs.active i c hc ha).2
  | false =>
    simp only [Passes, isSlotActive, slotCause?, Filling.slot?,
      Push.closes?_of_begins (ht.begins ha), Option.isNone_none, true_and, isActiveAt_eq,
      lengthAt_eq, hc, Option.map_some, Option.getD_some, ha, Bool.false_eq_true,
      not_false_eq_true, ite_eq_right_iff, reduceCtorEq, imp_false, false_or] at h
    exact Nat.le_of_not_lt h

theorem takes_of_selectSlot {slots : List Column} {n i : Nat} {slot : Option Nat} {c' : Column}
    (hs : isSlotActive slots (.filling slot) = false)
    (h : selectSlot slots n (.filling slot) i = .ok c') :
    Takes o (.tuple slots n (.filling slot)) (.index i) c' := by
  unfold selectSlot at h
  split at h
  · exact absurd h refuse_ne_ok
  · next hi =>
    split at h
    · exact absurd h refuse_ne_ok
    · next hlen =>
      cases h
      have hlt := Nat.lt_of_not_le hi
      have hc : slots[i]? = some slots[i] := List.getElem?_eq_getElem hlt
      rw [lengthAt_eq, hc] at hlen
      exact .tuple_index hs hc (Nat.le_of_not_lt hlen)

theorem takes_of_selectField {name : Option String} {fields : List (String × Column)} {n : Nat}
    {slot : Option Nat} {settled declared : Bool} {key : String} {check : Bool} {c' : Column}
    (hs : isSlotActive (columnsOf fields) (.filling slot) = false)
    (h : selectField name fields n (.filling slot) settled declared key check = .ok c') :
    Takes o (.record name fields n (.filling slot) settled declared) (.field key check) c' := by
  unfold selectField at h
  split at h
  · next i hi =>
    split at h
    · exact absurd h refuse_ne_ok
    · next hlen =>
      cases h
      have hlt : i < (columnsOf fields).length := by
        rw [columnsOf, List.length_map]
        exact (List.findIdx?_eq_some_iff_findIdx_eq.mp hi).1
      have hc := List.getElem?_eq_getElem hlt
      rw [lengthAt_eq, hc] at hlen
      exact .record_field hs hi hc (Nat.le_of_not_lt hlen)
  · next hi =>
    split at h
    · exact absurd h refuse_ne_ok
    · next hcheck =>
      cases h
      exact .record_new hs hi (by simpa using hcheck)

theorem exists_of_pushAt {cs cs' : List Column} {i : Nat} {c : Column} (hc : cs[i]? = some c)
    (h : pushAt o cs i p = .ok cs') : ∃ c', push o c p = .ok c' ∧ cs.set i c' = cs' := by
  rw [pushAt_eq, hc] at h
  exact inside_eq_ok h

theorem exists_of_pushField {fields fields' : List (String × Column)} {i : Nat} {c : Column}
    (hc : (columnsOf fields)[i]? = some c) (h : pushField o fields i p = .ok fields') :
    ∃ c', push o c p = .ok c' ∧ setField fields i c' = fields' := by
  rw [pushField_eq, hc] at h
  exact inside_eq_ok h

/-- The children of a column follow the rules. -/
abbrev Following (o : Options) (p : Push) (cs : List Column) : Prop :=
  ∀ c ∈ cs, ∀ c', push o c p = .ok c' → Takes o c p c'

theorem takes_of_tupleSlot {slots : List Column} {n : Nat} {slot : Option Nat} {c' : Column}
    (ih : Following o p slots) (hs : SlotsSound slots n (.filling slot))
    (hpass : Passes p .tuple slots n slot toString)
    (h : (pushAt o slots (slot.getD 0) p).inside (fun s => .tuple s n (.filling slot)) = .ok c') :
    Takes o (.tuple slots n (.filling slot)) p c' := by
  obtain ⟨i, c, rfl, hc⟩ := hpass.exists_slot hs
  obtain ⟨slots', hpush, rfl⟩ := inside_eq_ok h
  obtain ⟨d, hd, rfl⟩ := exists_of_pushAt hc hpush
  have ht := ih c (List.mem_of_getElem? hc) d hd
  exact .tuple_slot hc (hpass.length_le hs hc ht) ht

theorem takes_of_recordSlot {name : Option String} {fields : List (String × Column)} {n : Nat}
    {slot : Option Nat} {settled declared : Bool} {nameOf : Nat → String} {c' : Column}
    (ih : Following o p (columnsOf fields))
    (hs : SlotsSound (columnsOf fields) n (.filling slot))
    (hpass : Passes p .record (columnsOf fields) n slot nameOf)
    (h : (pushField o fields (slot.getD 0) p).inside
      (fun fields => .record name fields n (.filling slot) settled declared) = .ok c') :
    Takes o (.record name fields n (.filling slot) settled declared) p c' := by
  obtain ⟨i, c, rfl, hc⟩ := hpass.exists_slot hs
  obtain ⟨fields', hpush, rfl⟩ := inside_eq_ok h
  obtain ⟨d, hd, rfl⟩ := exists_of_pushField hc hpush
  have ht := ih c (List.mem_of_getElem? hc) d hd
  exact .record_slot hc (hpass.length_le hs hc ht) ht

/-- An accepted push into a sound column follows one of the rules. -/
theorem takes_of_push {c : Column} (hsound : c.Sound) :
    ∀ {p : Push} {c' : Column}, push o c p = .ok c' → Takes o c p c' := by
  induction c using Column.induct with
  | node c ih =>
    intro p c' h
    have hnode := hsound.node
    have hbelow : Following o p c.children := fun d hd _ => ih d hd (hsound.children d hd)
    unfold push at h
    split at h
    · exact absurd h refuse_ne_ok
    · split at h
      · cases h
        exact .unknown_null _
      · split at h
        · next hp =>
          cases h
          exact .unknown_first _ hp
        · exact absurd h refuse_ne_ok
    · next index content _ =>
      split at h
      · next ha =>
        obtain ⟨content', hpush, rfl⟩ := inside_eq_ok h
        exact .option_open ha (hbelow content (List.mem_singleton_self _) _ hpush)
      · next ha =>
        rw [Bool.not_eq_true] at ha
        split at h
        · cases h
          exact .option_null ha
        · split at h
          · exact absurd h refuse_ne_ok
          · next hp =>
            cases hpush : push o content p with
            | error r => rw [hpush] at h; cases h
            | ok content' =>
              rw [hpush] at h
              cases h
              exact .option_present ha hp (hbelow content (List.mem_singleton_self _) _ hpush)
    · next offsets content _ =>
      split at h
      · next he =>
        obtain ⟨rfl, ha⟩ := he
        cases h
        exact .list_end (by simpa using ha)
      · obtain ⟨content', hpush, rfl⟩ := inside_eq_ok h
        exact .list_item (hbelow content (List.mem_singleton_self _) _ hpush)
    -- an open tuple: the push passes to the open slot, or it is for the tuple itself, or it
    -- begins the value of the selected slot
    · split at h
      · next hs => exact takes_of_tupleSlot hbelow hnode (.inl hs) h
      · next hs =>
        rw [Bool.not_eq_true] at hs
        split at h
        · exact takes_of_selectSlot hs h
        · cases h
          exact .tuple_end hs
        · split at h
          · exact absurd h refuse_ne_ok
          · next hcause => exact takes_of_tupleSlot hbelow hnode (.inr hcause) h
    -- an open record, likewise
    · next fields n slot settled declared _ =>
      split at h
      · next hs =>
        have hpass : Passes p .record (columnsOf fields) n slot toString := .inl hs
        exact takes_of_recordSlot hbelow hnode.1 hpass h
      · next hs =>
        rw [Bool.not_eq_true] at hs
        split at h
        · exact takes_of_selectField hs h
        · cases h
          exact .record_end hs
        · split at h
          · exact absurd h refuse_ne_ok
          · next hcause => exact takes_of_recordSlot hbelow hnode.1 (.inr hcause) h
    · next tags index children tag _ =>
      have hunion : UnionSound tags index children (some tag) := hnode
      have hc := List.getElem?_eq_getElem (hunion.last tag rfl).1
      split at h
      · next children' hpush =>
        obtain ⟨d, hd, rfl⟩ := exists_of_pushAt hc hpush
        cases h
        rw [openTag_set hc]
        exact .union_open hc (hbelow _ (List.mem_of_getElem? hc) _ hd)
      · cases h
    · next tags index children _ =>
      split at h
      · next hp =>
        unfold pushClosed at h
        split at h
        · cases h
          exact .first_null rfl nofun nofun
        · rw [hp] at h
          exact absurd h refuse_ne_ok
      · next k hp =>
        -- a child of the class takes the push, or a new child is added for it
        split at h
        · next tag ht =>
          have hc := List.getElem?_eq_getElem (List.findIdx?_eq_some_iff_findIdx_eq.mp ht).1
          cases hpush : pushAt o children tag p with
          | error r => rw [hpush] at h; cases h
          | ok children' =>
            rw [hpush] at h
            obtain ⟨d, hd, rfl⟩ := exists_of_pushAt hc hpush
            cases h
            rw [openTag_set hc, lengthAt_eq, hc]
            exact .union_own hp ht hc (hbelow _ (List.mem_of_getElem? hc) _ hd)
        · next ht =>
          split at h
          · exact absurd h refuse_ne_ok
          · next hlt =>
            cases h
            exact .union_new hp ht (Nat.lt_of_not_le hlt)
    · next hu ho hl ht hr hus hun _ =>
      -- what is left is neither a wrapper nor open
      obtain ⟨ha, k, hk⟩ := exists_class hu ho hl ht hr hus hun
      exact takes_of_pushClosed ha hk h

end Columnar.Column
