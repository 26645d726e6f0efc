import Columnar.Proofs.Column.Runs

/-!
# What a column accepts

Whether a push is taken is a matter of the open containers, with two exceptions: a checked
field has to be known to the innermost record, and a union that has all the kinds it can
number takes no element of another kind.  A push that is refused is refused for one of these.

## Main definitions

* `Column.place` — the column that the next element goes to.
* `Column.innermost` — the column whose container was opened last.
* `Column.Accepts` — the open containers and the innermost record allow a push.
* `Column.IsFull` — a push would have to add a child to a union that has all it can have.

## Main results

* `Column.Takes.accepts`, `Column.Takes.not_isFull` — what is taken is accepted.
* `Column.refuses_of_push` — **why a push is refused**: for a full union if it is accepted
  otherwise, and for another cause if it is not.
-/

namespace Columnar

namespace Column

variable {o : Options} {p : Push} {c d : Column}

/-! ### The way down -/

/-- The column that the next element goes to. -/
def place (c : Column) : Column :=
  match _h : c.inner? with
  | some d => place d
  | none => c
termination_by sizeOf c
decreasing_by exact sizeOf_lt_of_mem_children (mem_children_of_inner? _h)

/-- The column whose container was opened last, of those that are open. -/
def innermost (c : Column) : Column :=
  match _h : c.inner?.filter isActive with
  | some d => innermost d
  | none => c
termination_by sizeOf c
decreasing_by
  exact sizeOf_lt_of_mem_children (mem_children_of_inner? (Option.filter_eq_some_iff.mp _h).1)

theorem place_of_inner (h : c.inner? = some d) : c.place = d.place := by
  rw [place]
  split
  · next e he =>
    rw [h] at he
    rw [Option.some.inj he]
  · next he =>
    rw [h] at he
    cases he

theorem place_of_none (h : c.inner? = none) : c.place = c := by
  rw [place]
  split
  · next d he =>
    rw [h] at he
    cases he
  · rfl

theorem innermost_of_inner (h : c.inner? = some d) (ha : d.isActive = true) :
    c.innermost = d.innermost := by
  have hf : c.inner?.filter isActive = some d := Option.filter_eq_some_iff.mpr ⟨h, ha⟩
  rw [innermost]
  split
  · next e he =>
    rw [hf] at he
    rw [Option.some.inj he]
  · next he =>
    rw [hf] at he
    cases he

theorem innermost_of_idle (h : ∀ d, c.inner? = some d → d.isActive = false) :
    c.innermost = c := by
  rw [innermost]
  split
  · next d he =>
    obtain ⟨hd, ha⟩ := Option.filter_eq_some_iff.mp he
    rw [h d hd] at ha
    cases ha
  · rfl

/-- Nothing is below a column of one class that is not open. -/
theorem inner?_eq_none {k : ElementClass} (hc : c.isActive = false) (hk : c.class? = some k) :
    c.inner? = none := by
  cases c with
  | unknown | option | union => cases hk
  | list offsets content isOpen =>
    cases isOpen with
    | true => cases hc
    | false => rfl
  | tuple slots n filling =>
    cases filling with
    | filling slot => cases hc
    | closed => rfl
  | record name fields n filling settled declared =>
    cases filling with
    | filling slot => cases hc
    | closed => rfl
  | _ => rfl

/-- The containers that are open above an open column. -/
theorem levels_of_inner (h : c.inner? = some d) : c.levels = d.levels ++ c.level?.toList := by
  rw [levels_eq, h]
  rfl

/-! ### Acceptance -/

/-- Whether a record has the field that is selected, or may take it as a new one. -/
def knows : Column → Push → Bool
  | .record _ fields _ _ settled _, .field key check =>
    decide (key ∈ fields.map Prod.fst) || !(check && settled)
  | _, _ => true

/-- The open containers and the innermost record allow a push. -/
def Accepts (c : Column) (p : Push) : Prop :=
  Level.allows c.levels p = true ∧ c.innermost.knows p = true

/-- A push begins an element that goes to a union with all the children it can have, none
of them of the class of the element. -/
def IsFull (c : Column) (p : Push) : Prop :=
  ∃ k tags index children, p.elementClass? = some k ∧
    c.place = .union tags index children none ∧ children.length = maxUnionKinds ∧
    ∀ d ∈ children, d.class? ≠ some k

theorem knows_of_ne {c : Column} (h : p.selects? ≠ some .record) : c.knows p = true := by
  cases c <;> cases p <;> first | rfl | exact absurd rfl h

theorem knows_of_begins {c : Column} (h : p.Begins) : c.knows p = true := by
  refine knows_of_ne ?_
  rw [Push.selects?_of_begins h]
  nofun

/-- A push that an open column below accepts is accepted, and the other way round. -/
theorem accepts_of_inner (hs : d.Sound) (h : c.inner? = some d) (ha : d.isActive = true) :
    c.Accepts p ↔ d.Accepts p := by
  rw [Accepts, Accepts, levels_of_inner h, Level.allows_append (levels_ne_nil hs ha),
    innermost_of_inner h ha]

theorem isFull_of_inner (h : c.inner? = some d) : c.IsFull p ↔ d.IsFull p := by
  rw [IsFull, IsFull, place_of_inner h]

theorem IsFull.inner (hf : c.IsFull p) (h : c.inner? = some d) : d.IsFull p :=
  (isFull_of_inner h).mp hf

theorem accepts_closed (hc : c.isActive = false) (hp : p.unitCode? = none) :
    c.Accepts p ↔ p.Begins := by
  rw [Accepts, levels_eq_nil hc, Level.allows_nil_iff hp]
  exact and_iff_left_of_imp knows_of_begins

theorem not_isFull_of_class {k : ElementClass} (hc : c.isActive = false)
    (hk : c.class? = some k) : ¬ c.IsFull p := by
  rintro ⟨-, tags, index, children, -, hplace, -⟩
  rw [place_of_none (inner?_eq_none hc hk)] at hplace
  rw [hplace] at hk
  cases hk

/-! ### What is taken -/

/-- None of the slots below is open if the selected one is not. -/
theorem isActive_of_idle {slots : List Column} {slot : Option Nat} {i : Nat}
    (hs : isSlotActive slots (.filling slot) = false) (hslot : slot = some i)
    (hd : slots[i]? = some d) : d.isActive = false := by
  subst hslot
  change isActiveAt slots i = false at hs
  rwa [isActiveAt_eq, hd] at hs

theorem innermost_tuple {slots : List Column} {n : Nat} {slot : Option Nat}
    (hs : isSlotActive slots (.filling slot) = false) :
    (Column.tuple slots n (.filling slot)).innermost = .tuple slots n (.filling slot) := by
  refine innermost_of_idle fun d hd => ?_
  cases slot with
  | none => cases hd
  | some i => exact isActive_of_idle hs rfl hd

theorem innermost_record {name : Option String} {fields : List (String × Column)} {n : Nat}
    {slot : Option Nat} {settled declared : Bool}
    (hs : isSlotActive (columnsOf fields) (.filling slot) = false) :
    (Column.record name fields n (.filling slot) settled declared).innermost
      = .record name fields n (.filling slot) settled declared := by
  refine innermost_of_idle fun d hd => ?_
  cases slot with
  | none => cases hd
  | some i => exact isActive_of_idle hs rfl hd

theorem Takes.knows_inner {d' : Column} (ht : Takes o d p d') (h : c.inner? = some d)
    (ih : d.innermost.knows p = true) : c.innermost.knows p = true := by
  cases ha : d.isActive with
  | true => rwa [innermost_of_inner h ha]
  | false => exact knows_of_begins (ht.begins ha)

/-- The innermost record knows a field that is selected, or takes it as a new one. -/
theorem Takes.knows {c c' : Column} (h : Takes o c p c') : c.innermost.knows p = true := by
  induction h with
  | unknown_null | option_null | first_null | list_end | tuple_index | tuple_end | record_end =>
    exact knows_of_ne nofun
  | unknown_first _ hp => exact knows_of_begins (.inr ⟨_, hp⟩)
  | option_present _ hp => exact knows_of_begins (.inr ⟨_, hp⟩)
  | own _ hp => exact knows_of_begins (.inr ⟨_, hp⟩)
  | other _ hp => exact knows_of_begins (.inr ⟨_, hp⟩)
  | union_own hp => exact knows_of_begins (.inr ⟨_, hp⟩)
  | union_new hp => exact knows_of_begins (.inr ⟨_, hp⟩)
  | option_open _ h ih => exact h.knows_inner rfl ih
  | list_item h ih => exact h.knows_inner rfl ih
  | tuple_slot hc _ h ih => exact h.knows_inner hc ih
  | record_slot hc _ h ih => exact h.knows_inner hc ih
  | union_open hc h ih => exact h.knows_inner hc ih
  | record_field hs hi =>
    rw [innermost_record hs, Column.knows, Bool.or_eq_true]
    exact .inl (decide_eq_true (List.mem_of_getElem? (fieldIndex?_eq_some hi)))
  | record_new hs _ hcheck =>
    rw [innermost_record hs, Column.knows, hcheck, Bool.or_eq_true]
    exact .inr rfl

theorem Takes.accepts {c c' : Column} (hs : c.Sound) (h : Takes o c p c') : c.Accepts p :=
  ⟨(h.step hs).1, h.knows⟩

/-- What is taken does not ask for another child of a full union. -/
theorem Takes.not_isFull {c c' : Column} (h : Takes o c p c') : ¬ c.IsFull p := by
  induction h with
  | unknown_null | option_null | first_null | list_end | tuple_index | tuple_end | record_end
  | record_field | record_new =>
    rintro ⟨k, tags, index, children, hk, -⟩
    cases hk
  | unknown_first n hp =>
    rintro ⟨k, tags, index, children, -, hplace, -⟩
    rw [place_of_none rfl] at hplace
    cases hplace
  | own hc _ hk => exact not_isFull_of_class hc hk
  | other hc _ hk => exact not_isFull_of_class hc hk
  | option_present _ _ _ ih => exact fun hf => ih (hf.inner rfl)
  | option_open _ _ ih => exact fun hf => ih (hf.inner rfl)
  | list_item _ ih => exact fun hf => ih (hf.inner rfl)
  | tuple_slot hc _ _ ih => exact fun hf => ih (hf.inner hc)
  | record_slot hc _ _ ih => exact fun hf => ih (hf.inner hc)
  | union_open hc _ ih => exact fun hf => ih (hf.inner hc)
  | union_own hp ht hc =>
    rintro ⟨k, tags, index, children, hk, hplace, -, hnone⟩
    rw [place_of_none rfl] at hplace
    cases hplace
    cases hp.symm.trans hk
    refine hnone _ (List.mem_of_getElem? hc) (admits_iff.mp ?_)
    obtain ⟨hi, hadmits, -⟩ := List.findIdx?_eq_some_iff_getElem.mp ht
    rw [List.getElem?_eq_getElem hi] at hc
    rwa [← Option.some.inj hc]
  | union_new _ _ hlt =>
    rintro ⟨k, tags, index, children, -, hplace, hlen, -⟩
    rw [place_of_none rfl] at hplace
    cases hplace
    omega

/-! ### What is refused -/

/-- A refusal is for a full union, and the push is accepted otherwise; or it is for another
cause, and the push is not accepted. -/
def Refuses (c : Column) (p : Push) (cause : PushCause) : Prop :=
  cause = .unionOverflow ∧ c.Accepts p ∧ c.IsFull p ∨ cause ≠ .unionOverflow ∧ ¬ c.Accepts p

variable {cause : PushCause}

/-- An open column below refuses for the column above. -/
theorem Refuses.of_inner (hs : d.Sound) (h : c.inner? = some d) (ha : d.isActive = true)
    (hr : d.Refuses p cause) : c.Refuses p cause := by
  rwa [Refuses, accepts_of_inner hs h ha, isFull_of_inner h]

/-- Where nothing is open below, the column below refuses elements for a full union alone. -/
theorem Refuses.of_idle (hp : p.unitCode? = none) (h : c.inner? = some d)
    (ha : d.isActive = false) (hiff : c.Accepts p ↔ p.Begins) (hr : d.Refuses p cause) :
    c.Refuses p cause := by
  rwa [Refuses, hiff, isFull_of_inner h, ← accepts_closed ha hp]

theorem refuses_closed (hc : c.isActive = false) (hp : p.unitCode? = none) (hb : ¬ p.Begins) :
    c.Refuses p (idleCause p) := by
  refine .inr ⟨?_, fun h => hb ((accepts_closed hc hp).mp h)⟩
  unfold idleCause
  split <;> nofun

theorem inside_eq_error {α β : Type} {f : α → β} {x : Pushed α} {r : Refused β}
    (h : x.inside f = .error r) : ∃ s, x = .error s ∧ s.error = r.error := by
  cases x with
  | ok a => cases h
  | error s =>
    cases h
    exact ⟨s, rfl, rfl⟩

theorem exists_of_pushAt_error {cs : List Column} {i : Nat} {r : Refused (List Column)}
    (h : pushAt o cs i p = .error r) :
    ∃ c s, cs[i]? = some c ∧ push o c p = .error s ∧ s.error = r.error := by
  rw [pushAt_eq] at h
  split at h
  · next c hc =>
    obtain ⟨s, hs, he⟩ := inside_eq_error h
    exact ⟨c, s, hc, hs, he⟩
  · cases h

theorem exists_of_pushField_error {fields : List (String × Column)} {i : Nat}
    {r : Refused (List (String × Column))} (h : pushField o fields i p = .error r) :
    ∃ c s, (columnsOf fields)[i]? = some c ∧ push o c p = .error s ∧ s.error = r.error := by
  rw [pushField_eq] at h
  split at h
  · next c hc =>
    obtain ⟨s, hs, he⟩ := inside_eq_error h
    exact ⟨c, s, hc, hs, he⟩
  · cases h

/-! ### Slots -/

/-- A slot is selected, and it holds no value for row `n`. -/
def HasRoom (slots : List Column) (n : Nat) (slot : Option Nat) : Prop :=
  ∃ i, slot = some i ∧ lengthAt slots i ≤ n

theorem hasRoom_tuple {slots : List Column} {n : Nat} {slot : Option Nat} :
    (Level.tuple slots.length slot (filledSlots slots n)).hasRoom = true
      ↔ HasRoom slots n slot := by
  cases slot with
  | none => simp [Level.hasRoom, HasRoom]
  | some i =>
    simp only [Level.hasRoom, HasRoom, decide_eq_true_eq, Option.some.injEq, mem_filledSlots_iff,
      Nat.not_lt]
    exact ⟨fun h => ⟨i, rfl, h⟩, by rintro ⟨_, rfl, h⟩; exact h⟩

theorem hasRoom_record {fields : List (String × Column)} {n : Nat} {slot : Option Nat}
    (hkeys : (fields.map Prod.fst).Nodup) (hs : ∀ i, slot = some i → i < fields.length) :
    (Level.record (slot.bind fun i => (fields.map Prod.fst)[i]?) (filledKeys fields n)).hasRoom
      = true ↔ HasRoom (columnsOf fields) n slot := by
  cases slot with
  | none => simp [Level.hasRoom, HasRoom]
  | some i =>
    have hi := hs i rfl
    have hkey : (fields.map Prod.fst)[i]? = some fields[i].1 := by
      rw [List.getElem?_map, List.getElem?_eq_getElem hi]
      rfl
    rw [Option.bind_some, hkey]
    simp only [Level.hasRoom, HasRoom, decide_eq_true_eq, Option.some.injEq,
      mem_filledKeys_iff hkeys hkey, Nat.not_lt]
    exact ⟨fun h => ⟨i, rfl, h⟩, by rintro ⟨_, rfl, h⟩; exact h⟩

/-- What an open tuple or record refuses itself, it has no room for. -/
theorem of_slotCause?_eq_some {container : Container} {slots : List Column} {n : Nat}
    {slot : Option Nat} {nameOf : Nat → String}
    (h : slotCause? p container slots n (.filling slot) nameOf = some cause) :
    cause ≠ .unionOverflow ∧ ¬ (p.Begins ∧ HasRoom slots n slot) := by
  unfold slotCause? at h
  split at h
  · next hslot =>
    cases hslot
    refine ⟨?_, fun ⟨_, i, hi, _⟩ => nomatch hi⟩
    split at h <;> cases h <;> nofun
  · next i hslot =>
    cases hslot
    split at h
    · next hfull =>
      cases h
      refine ⟨nofun, ?_⟩
      rintro ⟨-, _, ⟨⟩, hroom⟩
      omega
    · cases h

/-- What it passes on goes to a slot that has been selected, and has room if it begins an
element. -/
theorem of_slotCause?_eq_none {container : Container} {slots : List Column} {n : Nat}
    {slot : Option Nat} {nameOf : Nat → String}
    (ha : isSlotActive slots (.filling slot) = false)
    (h : slotCause? p container slots n (.filling slot) nameOf = none) :
    slot.isSome ∧ (p.Begins → HasRoom slots n slot) := by
  unfold slotCause? at h
  split at h
  · split at h <;> cases h
  · next i hslot =>
    cases hslot
    change isActiveAt slots i = false at ha
    refine ⟨rfl, fun hb => ⟨i, rfl, ?_⟩⟩
    by_contra hroom
    rw [if_pos ⟨by rw [Push.closes?_of_begins hb]; rfl, by simp [ha], by omega⟩] at h
    cases h

/-- What an open slot refuses, the tuple or record refuses. -/
theorem Refuses.of_activeSlot {slots : List Column} {slot : Option Nat}
    (hs : ∀ d ∈ slots, d.Sound) (hinner : c.inner? = slot.bind fun i => slots[i]?)
    (ha : isSlotActive slots (.filling slot) = true) (hd : slots[slot.getD 0]? = some d)
    (hr : d.Refuses p cause) : c.Refuses p cause := by
  cases slot with
  | none => cases ha
  | some i =>
    change isActiveAt slots i = true at ha
    rw [isActiveAt_eq, show slots[i]? = some d from hd] at ha
    exact hr.of_inner (hs d (List.mem_of_getElem? hd)) (hinner.trans hd) ha

theorem refuses_of_slotCause {container : Container} {slots : List Column} {n : Nat}
    {slot : Option Nat} {nameOf : Nat → String}
    (hiff : c.Accepts p ↔ p.Begins ∧ HasRoom slots n slot)
    (hcause : slotCause? p container slots n (.filling slot) nameOf = some cause) :
    c.Refuses p cause := by
  obtain ⟨hne, hroom⟩ := of_slotCause?_eq_some hcause
  exact .inr ⟨hne, fun hacc => hroom (hiff.mp hacc)⟩

/-- What a slot refuses that is not open, the tuple or record refuses. -/
theorem Refuses.of_idleSlot {container : Container} {slots : List Column} {n : Nat}
    {slot : Option Nat} {nameOf : Nat → String} (hp : p.unitCode? = none)
    (hinner : c.inner? = slot.bind fun i => slots[i]?)
    (hiff : c.Accepts p ↔ p.Begins ∧ HasRoom slots n slot)
    (ha : isSlotActive slots (.filling slot) = false)
    (hcause : slotCause? p container slots n (.filling slot) nameOf = none)
    (hd : slots[slot.getD 0]? = some d) (hr : d.Refuses p cause) : c.Refuses p cause := by
  obtain ⟨hslot, hroom⟩ := of_slotCause?_eq_none ha hcause
  obtain ⟨i, rfl⟩ := Option.isSome_iff_exists.mp hslot
  refine hr.of_idle hp (hinner.trans hd) (isActive_of_idle ha rfl hd) ?_
  rw [hiff]
  exact ⟨And.left, fun hb => ⟨hb, hroom hb⟩⟩

/-! ### Lists, tuples and records -/

theorem accepts_list {offsets : Array Nat} {content : Column} (ha : content.isActive = false)
    (hp : p.unitCode? = none) (he : p ≠ .endList) :
    (Column.list offsets content true).Accepts p ↔ p.Begins := by
  have hinner : (Column.list offsets content true).innermost = .list offsets content true :=
    innermost_of_idle fun d hd => by cases hd; exact ha
  have hsel : p.selects? ≠ some Level.list.container := by
    cases p <;> simp [Push.selects?, Level.container]
  have hclose : p.closes? ≠ some Level.list.container := by
    cases p <;> simp_all [Push.closes?, Level.container]
  rw [Accepts, levels_list_open, levels_eq_nil ha, hinner, List.nil_append,
    Level.allows_cons_iff [] hp hsel hclose]
  simp [Level.hasRoom, knows]

theorem accepts_tuple {slots : List Column} {n : Nat} {slot : Option Nat}
    (hs : SlotsSound slots n (.filling slot)) (ha : isSlotActive slots (.filling slot) = false) :
    (Column.tuple slots n (.filling slot)).Accepts p
      ↔ Level.allows [.tuple slots.length slot (filledSlots slots n)] p = true := by
  rw [Accepts, levels_tuple_idle hs ha, innermost_tuple ha]
  simp [knows]

theorem accepts_tuple_iff {slots : List Column} {n : Nat} {slot : Option Nat}
    (hs : SlotsSound slots n (.filling slot)) (ha : isSlotActive slots (.filling slot) = false)
    (hp : p.unitCode? = none) (hi : ∀ i, p ≠ .index i) (he : p ≠ .endTuple) :
    (Column.tuple slots n (.filling slot)).Accepts p ↔ p.Begins ∧ HasRoom slots n slot := by
  have hsel : p.selects? ≠ some .tuple := by
    cases p <;> simp_all [Push.selects?]
  have hclose : p.closes? ≠ some .tuple := by
    cases p <;> simp_all [Push.closes?]
  rw [accepts_tuple hs ha,
    Level.allows_cons_iff (l := .tuple slots.length slot (filledSlots slots n)) [] hp hsel hclose,
    hasRoom_tuple]

theorem accepts_record_iff (name : Option String) {fields : List (String × Column)} {n : Nat}
    {slot : Option Nat} (settled declared : Bool)
    (hs : SlotsSound (columnsOf fields) n (.filling slot)) (hkeys : (fields.map Prod.fst).Nodup)
    (ha : isSlotActive (columnsOf fields) (.filling slot) = false) (hp : p.unitCode? = none)
    (hf : ∀ key check, p ≠ .field key check) (he : p ≠ .endRecord) :
    (Column.record name fields n (.filling slot) settled declared).Accepts p
      ↔ p.Begins ∧ HasRoom (columnsOf fields) n slot := by
  have hslot : ∀ i, slot = some i → i < fields.length := by
    intro i hi
    simpa [columnsOf] using hs.selected i hi
  have hsel : p.selects? ≠ some .record := by
    cases p <;> simp_all [Push.selects?]
  have hclose : p.closes? ≠ some .record := by
    cases p <;> simp_all [Push.closes?]
  have hiff := Level.allows_cons_iff (p := p) [] hp (l := .record
    (slot.bind fun i => (fields.map Prod.fst)[i]?) (filledKeys fields n)) hsel hclose
  rw [Accepts, levels_record_idle hs ha, hiff, hasRoom_record hkeys hslot]
  exact and_iff_left_of_imp fun _ => knows_of_ne hsel

theorem refuses_of_selectSlot {slots : List Column} {n i : Nat} {slot : Option Nat}
    {r : Refused Column} (hs : SlotsSound slots n (.filling slot))
    (ha : isSlotActive slots (.filling slot) = false)
    (h : selectSlot slots n (.filling slot) i = .error r) :
    (Column.tuple slots n (.filling slot)).Refuses (.index i) r.error.cause := by
  have hiff : (Column.tuple slots n (.filling slot)).Accepts (.index i)
      ↔ i < slots.length ∧ lengthAt slots i ≤ n := by
    rw [accepts_tuple hs ha]
    simp [Level.allows, Level.canSelect, Push.selects?, mem_filledSlots_iff]
  unfold selectSlot at h
  split at h
  · next hi =>
    cases h
    refine .inr ⟨by rintro ⟨⟩, fun hacc => ?_⟩
    exact absurd (hiff.mp hacc).1 (Nat.not_lt.mpr hi)
  · split at h
    · next hlen =>
      cases h
      refine .inr ⟨by rintro ⟨⟩, fun hacc => ?_⟩
      exact absurd hlen (Nat.not_lt.mpr (hiff.mp hacc).2)
    · cases h

theorem refuses_of_selectField {name : Option String} {fields : List (String × Column)} {n : Nat}
    {slot : Option Nat} {settled declared : Bool} {key : String} {check : Bool}
    {r : Refused Column} (hs : SlotsSound (columnsOf fields) n (.filling slot))
    (hkeys : (fields.map Prod.fst).Nodup)
    (ha : isSlotActive (columnsOf fields) (.filling slot) = false)
    (h : selectField name fields n (.filling slot) settled declared key check = .error r) :
    (Column.record name fields n (.filling slot) settled declared).Refuses (.field key check)
      r.error.cause := by
  have himp : (Column.record name fields n (.filling slot) settled declared).Accepts
      (.field key check) → key ∉ filledKeys fields n ∧
        (key ∈ fields.map Prod.fst ∨ (check && settled) = false) := by
    rw [Accepts, levels_record_idle hs ha, innermost_record ha]
    rintro ⟨hallows, hknows⟩
    rw [knows, Bool.or_eq_true, decide_eq_true_eq, Bool.not_eq_true'] at hknows
    exact ⟨by simpa [Level.allows, Level.canSelect, Push.selects?] using hallows, hknows⟩
  unfold selectField at h
  split at h
  · next i hi =>
    split at h
    · next hlen =>
      cases h
      refine .inr ⟨by rintro ⟨⟩, fun hacc => (himp hacc).1 ?_⟩
      exact (mem_filledKeys_iff hkeys (fieldIndex?_eq_some hi)).mpr hlen
    · cases h
  · next hi =>
    split at h
    · next hcheck =>
      cases h
      refine .inr ⟨by rintro ⟨⟩, fun hacc => ?_⟩
      rcases (himp hacc).2 with hmem | hnot
      · exact fieldIndex?_eq_none.mp hi hmem
      · rw [hnot] at hcheck
        cases hcheck
    · cases h

/-! ### Every refusal -/

/-- The children of a column refuse for the reasons that are stated. -/
abbrev Refusing (o : Options) (p : Push) (cs : List Column) : Prop :=
  ∀ c ∈ cs, ∀ r, push o c p = .error r → c.Refuses p r.error.cause

section

variable {r : Refused Column}

/-- A union without a child of the class refuses its elements if it is full; a child that has the
class refuses none. -/
theorem refuses_union_begin {tags index : Array Nat} {children : List Column} {k : ElementClass}
    (hs : UnionSound tags index children none) (hk : p.elementClass? = some k)
    (hbelow : Refusing o p children) (h : push o (.union tags index children none) p = .error r) :
    (Column.union tags index children none).Refuses p r.error.cause := by
  have hp : p.unitCode? = none := Push.unitCode?_of_begins (.inr ⟨k, hk⟩)
  have hacc : (Column.union tags index children none).Accepts p :=
    (accepts_closed rfl hp).mpr (.inr ⟨k, hk⟩)
  rw [push_union_begin hk] at h
  split at h
  · next tag ht =>
    exfalso
    cases hpush : pushAt o children tag p with
    | ok children' =>
      rw [hpush] at h
      cases h
    | error s =>
      obtain ⟨d, s', hd, hpush', -⟩ := exists_of_pushAt_error hpush
      have hmem := List.mem_of_getElem? hd
      have hda := hs.not_active hmem
      obtain ⟨k', hk'⟩ := Option.isSome_iff_exists.mp (hs.classes d hmem)
      rcases hbelow d hmem s' hpush' with ⟨-, -, hfull⟩ | ⟨-, hnot⟩
      · exact not_isFull_of_class hda hk' hfull
      · exact hnot ((accepts_closed hda hp).mpr (.inr ⟨k, hk⟩))
  · next ht =>
    split at h
    · next hlen =>
      cases h
      refine .inl ⟨rfl, hacc, k, tags, index, children, hk, place_of_none rfl,
        Nat.le_antisymm hs.le_max hlen, fun d hd hclass => ?_⟩
      have hnone := List.findIdx?_eq_none_iff.mp ht d hd
      rw [admits_iff.mpr hclass] at hnone
      cases hnone
    · cases h

/-- Where nothing is open, elements are refused by a full union alone, and all else is refused. -/
theorem refuses_inactive (hs : c.Sound) (hc : c.isActive = false) (hp : p.unitCode? = none)
    (hbelow : Refusing o p c.children) (h : push o c p = .error r) :
    c.Refuses p r.error.cause := by
  by_cases hb : p.Begins
  · rcases hb with rfl | ⟨k, hk⟩
    · rw [(takes_null hc).push_eq] at h
      cases h
    · cases c with
      | unknown n =>
        rw [push_unknown n hk] at h
        cases h
      | option index content =>
        have ha : content.isActive = false := by simpa [isActive] using hc
        have hcontent := hbelow content (List.mem_singleton_self content)
        rw [push_option_begin hk index ha] at h
        cases hpush : push o content p with
        | ok content' =>
          rw [hpush] at h
          cases h
        | error s =>
          rw [hpush] at h
          cases h
          exact (hcontent s hpush).of_idle hp rfl ha (accepts_closed hc hp)
      | union tags index children current =>
        obtain rfl : current = none := by simpa [isActive] using hc
        exact refuses_union_begin hs.node hk hbelow h
      | _ =>
        rw [push_eq_pushClosed hc rfl hp, pushClosed_begin hk] at h
        split at h <;> cases h
  · rw [push_idle hc hp hb] at h
    cases h
    exact refuses_closed hc hp hb

theorem refuses_list {offsets : Array Nat} {content : Column}
    (hs : (Column.list offsets content true).Sound) (hp : p.unitCode? = none)
    (hbelow : Refusing o p [content]) (h : push o (.list offsets content true) p = .error r) :
    (Column.list offsets content true).Refuses p r.error.cause := by
  have hmem := List.mem_singleton_self content
  by_cases hend : p = .endList ∧ ¬ content.isActive = true
  · obtain ⟨rfl, ha⟩ := hend
    rw [(Takes.list_end (by simpa using ha)).push_eq] at h
    cases h
  · rw [push_list_open hp offsets hend] at h
    obtain ⟨s, hpush, he⟩ := inside_eq_error h
    have hr := hbelow content hmem s hpush
    rw [← he]
    cases ha : content.isActive with
    | true => exact hr.of_inner (hs.children content hmem) rfl ha
    | false => exact hr.of_idle hp rfl ha (accepts_list ha hp (by simpa [ha] using hend))

/-- An open tuple: a push passes to the open slot, or it is for the tuple itself, or it begins
the value of the selected slot. -/
theorem refuses_tuple {slots : List Column} {n : Nat} {slot : Option Nat}
    (hs : (Column.tuple slots n (.filling slot)).Sound) (hp : p.unitCode? = none)
    (hbelow : Refusing o p slots) (h : push o (.tuple slots n (.filling slot)) p = .error r) :
    (Column.tuple slots n (.filling slot)).Refuses p r.error.cause := by
  have hinner : (Column.tuple slots n (.filling slot)).inner? = slot.bind fun i => slots[i]? := by
    cases slot <;> rfl
  by_cases ha : isSlotActive slots (.filling slot) = true
  · rw [push_tuple_slot hp (.inl ha)] at h
    obtain ⟨s, hpush, he⟩ := inside_eq_error h
    obtain ⟨d, s', hd, hpush', he'⟩ := exists_of_pushAt_error hpush
    rw [← he, ← he']
    exact (hbelow d (List.mem_of_getElem? hd) s' hpush').of_activeSlot hs.children hinner ha hd
  · rw [Bool.not_eq_true] at ha
    by_cases hi : ∃ i, p = .index i
    · obtain ⟨i, rfl⟩ := hi
      exact refuses_of_selectSlot hs.node ha ((if_neg (by simp [ha])).symm.trans h)
    by_cases hend : p = .endTuple
    · subst hend
      rw [(Takes.tuple_end ha).push_eq] at h
      cases h
    have hi' : ∀ i, p ≠ .index i := fun i hp' => hi ⟨i, hp'⟩
    have hiff := accepts_tuple_iff hs.node ha hp hi' hend
    rw [push_tuple_idle hp ha hi' hend] at h
    split at h
    · next cause hcause =>
      cases h
      exact refuses_of_slotCause hiff hcause
    · next hcause =>
      obtain ⟨s, hpush, he⟩ := inside_eq_error h
      obtain ⟨d, s', hd, hpush', he'⟩ := exists_of_pushAt_error hpush
      rw [← he, ← he']
      exact (hbelow d (List.mem_of_getElem? hd) s' hpush').of_idleSlot hp hinner hiff ha hcause hd

/-- An open record, likewise. -/
theorem refuses_record {name : Option String} {fields : List (String × Column)} {n : Nat}
    {slot : Option Nat} {settled declared : Bool}
    (hs : (Column.record name fields n (.filling slot) settled declared).Sound)
    (hp : p.unitCode? = none) (hbelow : Refusing o p (columnsOf fields))
    (h : push o (.record name fields n (.filling slot) settled declared) p = .error r) :
    (Column.record name fields n (.filling slot) settled declared).Refuses p r.error.cause := by
  have hinner : (Column.record name fields n (.filling slot) settled declared).inner?
      = slot.bind fun i => (columnsOf fields)[i]? := by
    cases slot <;> rfl
  by_cases ha : isSlotActive (columnsOf fields) (.filling slot) = true
  · rw [push_record_slot hp (.inl ha)] at h
    obtain ⟨s, hpush, he⟩ := inside_eq_error h
    obtain ⟨d, s', hd, hpush', he'⟩ := exists_of_pushField_error hpush
    rw [← he, ← he']
    exact (hbelow d (List.mem_of_getElem? hd) s' hpush').of_activeSlot hs.children hinner ha hd
  · rw [Bool.not_eq_true] at ha
    by_cases hf : ∃ key check, p = .field key check
    · obtain ⟨key, check, rfl⟩ := hf
      exact refuses_of_selectField hs.node.1 hs.node.2 ha ((if_neg (by simp [ha])).symm.trans h)
    by_cases hend : p = .endRecord
    · subst hend
      rw [(Takes.record_end ha).push_eq] at h
      cases h
    have hf' : ∀ key check, p ≠ .field key check := fun key check hp' => hf ⟨key, check, hp'⟩
    have hiff := accepts_record_iff name settled declared hs.node.1 hs.node.2 ha hp hf' hend
    rw [push_record_idle hp name settled declared ha hf' hend] at h
    split at h
    · next cause hcause =>
      cases h
      exact refuses_of_slotCause hiff hcause
    · next hcause =>
      obtain ⟨s, hpush, he⟩ := inside_eq_error h
      obtain ⟨d, s', hd, hpush', he'⟩ := exists_of_pushField_error hpush
      rw [← he, ← he']
      exact (hbelow d (List.mem_of_getElem? hd) s' hpush').of_idleSlot hp hinner hiff ha hcause hd

theorem refuses_union_open {tags index : Array Nat} {children : List Column} {tag : Nat}
    (hs : (Column.union tags index children (some tag)).Sound) (hp : p.unitCode? = none)
    (hbelow : Refusing o p children)
    (h : push o (.union tags index children (some tag)) p = .error r) :
    (Column.union tags index children (some tag)).Refuses p r.error.cause := by
  have hunion : UnionSound tags index children (some tag) := hs.node
  rw [push_union_open hp] at h
  split at h
  · cases h
  · next s hpush =>
    cases h
    obtain ⟨d, s', hd, hpush', he⟩ := exists_of_pushAt_error hpush
    rw [← he]
    have hmem := List.mem_of_getElem? hd
    exact (hbelow d hmem s' hpush').of_inner (hs.children d hmem) hd
      ((hunion.active_iff tag d hd).mpr rfl)

end

/-- **Why a push is refused.**  A push of an element that is accepted otherwise is refused for
a full union; every other refusal is of a push that is not accepted, and has another cause. -/
theorem refuses_of_push (hs : c.Sound) (hp : p.unitCode? = none) :
    ∀ {r : Refused Column}, push o c p = .error r → c.Refuses p r.error.cause := by
  -- The induction is on the tree.  What an open column below refuses is refused for the same
  -- reason; and where nothing is open below, the element that would begin there goes into a
  -- full union or is not refused at all.
  induction c using Column.induct with
  | node c ih =>
    intro r h
    have hbelow : Refusing o p c.children := fun d hd _ => ih d hd (hs.children d hd)
    cases hc : c.isActive with
    | false => exact refuses_inactive hs hc hp hbelow h
    | true =>
      cases c with
      | option index content =>
        have hmem := List.mem_singleton_self content
        have ha : content.isActive = true := by simpa [isActive] using hc
        rw [push_option_open hp index ha] at h
        obtain ⟨s, hpush, he⟩ := inside_eq_error h
        rw [← he]
        exact (hbelow content hmem s hpush).of_inner (hs.children content hmem) rfl ha
      | list offsets content isOpen =>
        obtain rfl : isOpen = true := hc
        exact refuses_list hs hp hbelow h
      | tuple slots n filling =>
        cases filling with
        | closed => cases hc
        | filling slot => exact refuses_tuple hs hp hbelow h
      | record name fields n filling settled declared =>
        cases filling with
        | closed => cases hc
        | filling slot => exact refuses_record hs hp hbelow h
      | union tags index children current =>
        cases current with
        | none => cases hc
        | some tag => exact refuses_union_open hs hp hbelow h
      | _ => cases hc

end Column

end Columnar
