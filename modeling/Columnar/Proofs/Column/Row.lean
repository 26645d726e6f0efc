import Mathlib.Data.List.Nodup
import Columnar.Proofs.Column.Within

/-!
# Open rows

An open tuple and an open record are much alike: there are slots, each with a column, one of
them may be selected, and the push that closes the row gives a missing element to the slots
that were not filled.  They differ in how a slot is selected and in whether one can be added.

## Main definitions

* `Row` — the slots, their columns, and the selected one.
* `RowShape` — what distinguishes tuples from records, with `tupleShape` and `recordShape`.
* `RowShape.Step` — what a push does to an open row.
* `RowShape.Lawful` — a shape whose open rows are columns that take pushes in this way.

## Main results

* `lawful_tupleShape`, `lawful_recordShape` — the open rows of both shapes are columns.
* `make_tupleRow`, `make_recordRow` — every open tuple or record is such a row.
-/

namespace Columnar

open Column

/-- An open row: the names of its slots in order, their columns, and the selected one. -/
structure Row (κ : Type) where
  /-- The slots. -/
  keys : List κ
  /-- The column of each slot. -/
  column : κ → Column
  /-- The selected slot. -/
  selected : Option κ

variable {κ : Type}

namespace Row

/-- No slot stands twice, and the selected one is one of them. -/
structure Proper (r : Row κ) : Prop where
  /-- The slots are distinct. -/
  nodup : r.keys.Nodup
  /-- Only a slot can be selected. -/
  mem : ∀ k, r.selected = some k → k ∈ r.keys

/-- The selected slot is not open. -/
def Idle (r : Row κ) : Prop := ∀ k, r.selected = some k → (r.column k).isActive = false

/-- The row with another slot selected. -/
def select (r : Row κ) (k : κ) : Row κ := { r with selected := some k }

/-- The row with a new slot, which is selected. -/
def add [DecidableEq κ] (r : Row κ) (k : κ) (c : Column) : Row κ :=
  ⟨r.keys ++ [k], Function.update r.column k c, some k⟩

/-- The row with another column in a slot. -/
def put [DecidableEq κ] (r : Row κ) (k : κ) (c : Column) : Row κ :=
  { r with column := Function.update r.column k c }

theorem Proper.select {r : Row κ} (h : r.Proper) {k : κ} (hk : k ∈ r.keys) :
    (r.select k).Proper :=
  ⟨h.nodup, by rintro _ ⟨⟩; exact hk⟩

theorem Proper.put [DecidableEq κ] {r : Row κ} (h : r.Proper) (k : κ) (c : Column) :
    (r.put k c).Proper :=
  ⟨h.nodup, h.mem⟩

theorem Proper.add [DecidableEq κ] {r : Row κ} (h : r.Proper) {k : κ} (hk : k ∉ r.keys)
    (c : Column) : (r.add k c).Proper := by
  refine ⟨?_, ?_⟩
  · rw [Row.add, ← List.concat_eq_append]
    exact List.Nodup.concat hk h.nodup
  · rintro _ ⟨⟩
    exact List.mem_append_right _ (List.mem_singleton_self _)

variable [DecidableEq κ]

/-- Where the selected slot stands. -/
def place (r : Row κ) : Option Nat := r.selected.map r.keys.idxOf

theorem getElem?_columns {r : Row κ} {k : κ} (hk : k ∈ r.keys) :
    (r.keys.map r.column)[r.keys.idxOf k]? = some (r.column k) := by
  rw [List.getElem?_map, List.getElem?_idxOf hk]
  rfl

theorem columns_put {r : Row κ} (h : r.Proper) {k : κ} (hk : k ∈ r.keys) (c : Column) :
    (r.put k c).keys.map (r.put k c).column = (r.keys.map r.column).set (r.keys.idxOf k) c := by
  rw [put, h.nodup.map_update, if_pos hk]

theorem isSlotActive_place {r : Row κ} (h : r.Proper) :
    isSlotActive (r.keys.map r.column) (.filling r.place) = false ↔ r.Idle := by
  cases hs : r.selected with
  | none => simp [isSlotActive, place, hs, Filling.slot?, Idle]
  | some k =>
    have hk := h.mem k hs
    simp only [isSlotActive, place, hs, Filling.slot?, Option.map_some, isActiveAt_eq,
      getElem?_columns hk, Option.getD_some, Idle, Option.some.injEq, forall_eq']

theorem selected_of_slotsSound {r : Row κ} {n : Nat} (hr : r.Proper)
    (hs : SlotsSound (r.keys.map r.column) n (.filling r.place)) {k : κ} (hk : k ∈ r.keys)
    (ha : (r.column k).isActive = true) : r.selected = some k := by
  have hplace : r.place = some (r.keys.idxOf k) := (hs.active _ _ (getElem?_columns hk) ha).1
  obtain ⟨k', hk', hidx⟩ := Option.map_eq_some_iff.mp hplace
  rw [hk', (List.idxOf_inj (hr.mem k' hk')).mp hidx]

end Row

/-- What distinguishes tuples from records. -/
structure RowShape (κ : Type) where
  /-- The number of complete rows. -/
  rows : Nat
  /-- The slot that a push selects. -/
  key? : List κ → Push → Option κ
  /-- Whether a push may add the slot that it selects. -/
  mayAdd : Push → Bool
  /-- The push that closes a row. -/
  closer : Push
  /-- The open column. -/
  make : Row κ → Column
  /-- The column when the row is closed. -/
  closed : List κ → (κ → Column) → Column

namespace RowShape

variable [DecidableEq κ]

/-- A push into an open row, and the column after it. -/
inductive Step (K : RowShape κ) (o : Options) (r : Row κ) : Push → Column → Prop
  /-- The choice of a slot. -/
  | select {p : Push} {k : κ} (hidle : r.Idle) (hp : K.key? r.keys p = some k) (hk : k ∈ r.keys)
      (hlen : (r.column k).length ≤ K.rows) : Step K o r p (K.make (r.select k))
  /-- The choice of a new slot. -/
  | add {p : Push} {k : κ} (hidle : r.Idle) (hp : K.key? r.keys p = some k) (hk : k ∉ r.keys)
      (hadd : K.mayAdd p = true) : Step K o r p (K.make (r.add k (.unknown K.rows)))
  /-- The end of the row. -/
  | close (hidle : r.Idle) : Step K o r K.closer (K.closed r.keys r.column)
  /-- A push into the selected slot. -/
  | slot {p : Push} {k : κ} {c : Column} (hk : r.selected = some k)
      (hlen : (r.column k).length ≤ K.rows) (h : Takes o (r.column k) p c) :
      Step K o r p (K.make (r.put k c))

/-- The open rows of a shape are columns, and this is what pushes do to them. -/
structure Lawful (K : RowShape κ) (o : Options) : Prop where
  /-- A push follows a rule for columns if and only if it follows one for rows. -/
  takes_iff : ∀ {r : Row κ} {p : Push} {c : Column}, r.Proper →
    (Takes o (K.make r) p c ↔ K.Step o r p c)
  /-- What selects a slot selects one for the stack machine. -/
  selects : ∀ {keys : List κ} {p : Push} {k : κ}, K.key? keys p = some k → p.selects?.isSome
  /-- A slot keeps its name when others are added. -/
  key?_append : ∀ {keys : List κ} {p : Push} {k : κ}, K.key? keys p = some k →
    ∀ new, K.key? (keys ++ new) p = some k
  /-- What closes a row closes one for the stack machine. -/
  closes : K.closer.closes?.isSome
  /-- An open row is open. -/
  isActive : ∀ r : Row κ, (K.make r).isActive = true
  /-- It is not among the complete ones. -/
  length : ∀ r : Row κ, (K.make r).length = K.rows
  /-- The row stands around its selected slot. -/
  within : ∀ {r : Row κ} {k : κ}, r.Proper → r.selected = some k →
    ∃ W, Within W ∧ ∀ c, K.make (r.put k c) = W c
  /-- Every slot is sound and has at least as many elements as there are rows. -/
  slots : ∀ {r : Row κ}, (K.make r).Sound → ∀ k ∈ r.keys,
    (r.column k).Sound ∧ K.rows ≤ (r.column k).length
  /-- Only the selected slot can be open. -/
  selected : ∀ {r : Row κ}, r.Proper → (K.make r).Sound → ∀ k ∈ r.keys,
    (r.column k).isActive = true → r.selected = some k
  /-- Of the slots only what they are after the row is kept. -/
  closed_congr : ∀ {keys : List κ} {column column' : κ → Column},
    (∀ k ∈ keys, fillSlot K.rows (column k) = fillSlot K.rows (column' k)) →
      K.closed keys column = K.closed keys column'

end RowShape

/-! ### Tuples -/

/-- Tuples, of which `n` are complete. -/
def tupleShape (n : Nat) : RowShape Nat where
  rows := n
  key? keys
    | .index i => keys[i]?
    | _ => none
  mayAdd _ := false
  closer := .endTuple
  make r := .tuple (r.keys.map r.column) n (.filling r.place)
  closed keys column := .tuple (fillSlots n (keys.map column)) (n + 1) .closed

section Tuple

variable {o : Options} {n : Nat} {r : Row Nat} {p : Push} {c : Column}

theorem make_select_tuple (hr : r.Proper) {i k : Nat} (hk : r.keys[i]? = some k) :
    (tupleShape n).make (r.select k) = .tuple (r.keys.map r.column) n (.filling (some i)) := by
  have hi : r.keys.idxOf k = i := by
    obtain ⟨hi, rfl⟩ := List.getElem?_eq_some_iff.mp hk
    exact hr.nodup.idxOf_getElem i hi
  rw [← hi]
  rfl

theorem make_put_tuple (hr : r.Proper) {k : Nat} (hk : r.selected = some k) (d : Column) :
    (tupleShape n).make (r.put k d)
      = .tuple ((r.keys.map r.column).set (r.keys.idxOf k) d) n (.filling r.place) := by
  rw [← Row.columns_put hr (hr.mem k hk)]
  rfl

theorem tupleShape_step (hr : r.Proper) (h : Takes o ((tupleShape n).make r) p c) :
    (tupleShape n).Step o r p c := by
  have hidle := Row.isSlotActive_place hr
  change Takes o (.tuple (r.keys.map r.column) n (.filling r.place)) p c at h
  generalize hslots : r.keys.map r.column = slots at h hidle
  generalize hplace : r.place = slot at h hidle
  cases h with
  | first_null hc | own hc | other hc => cases hc
  | tuple_end hs =>
    rw [← hslots]
    exact .close (hidle.mp hs)
  | @tuple_index _ _ _ i d hs hc hlen =>
    rw [← hslots, List.getElem?_map, Option.map_eq_some_iff] at hc
    obtain ⟨k, hk, rfl⟩ := hc
    rw [← hslots, ← make_select_tuple hr hk]
    exact .select (hidle.mp hs) hk (List.mem_of_getElem? hk) hlen
  | @tuple_slot _ _ i d d' _ hc hlen h =>
    obtain ⟨k, hk, rfl⟩ := Option.map_eq_some_iff.mp hplace
    rw [← hslots, Row.getElem?_columns (hr.mem k hk)] at hc
    cases hc
    rw [← hslots, ← hplace, ← make_put_tuple hr hk]
    exact .slot hk hlen h

theorem takes_tupleShape (hr : r.Proper) (h : (tupleShape n).Step o r p c) :
    Takes o ((tupleShape n).make r) p c := by
  have hidle := Row.isSlotActive_place hr
  cases h with
  | @select _ k hi hp hk hlen =>
    cases p with
    | index i =>
      have hkey : r.keys[i]? = some k := hp
      have hc : (r.keys.map r.column)[i]? = some (r.column k) := by
        rw [List.getElem?_map, hkey]
        rfl
      rw [make_select_tuple hr hkey]
      exact .tuple_index (hidle.mpr hi) hc hlen
    | _ => cases hp
  | add hi hp hk hadd => cases hadd
  | close hi => exact .tuple_end (hidle.mpr hi)
  | @slot _ k d hk hlen h =>
    have hplace : r.place = some (r.keys.idxOf k) := by rw [Row.place, hk, Option.map_some]
    rw [make_put_tuple hr hk, hplace]
    change Takes o (.tuple (r.keys.map r.column) n (.filling r.place)) p _
    rw [hplace]
    exact .tuple_slot (Row.getElem?_columns (hr.mem k hk)) hlen h

end Tuple

theorem lawful_tupleShape (o : Options) (n : Nat) : (tupleShape n).Lawful o where
  takes_iff hr := ⟨tupleShape_step hr, takes_tupleShape hr⟩
  selects := by
    intro keys p k h
    cases p <;> first | rfl | cases h
  key?_append := by
    intro keys p k h new
    cases p with
    | index i =>
      have hi : keys[i]? = some k := h
      change (keys ++ new)[i]? = some k
      rw [List.getElem?_append_left (List.getElem?_eq_some_iff.mp hi).1, hi]
    | _ => cases h
  closes := rfl
  isActive _ := rfl
  length _ := rfl
  within := by
    intro r k hr hk
    have hi : r.keys.idxOf k < (r.keys.map r.column).length := by
      rw [List.length_map]
      exact List.idxOf_lt_length_iff.mpr (hr.mem k hk)
    refine ⟨_, Within.here.tuple n hi, fun c => ?_⟩
    rw [make_put_tuple hr hk, Row.place, hk]
    rfl
  slots := by
    intro r hs k hk
    have hmem : r.column k ∈ r.keys.map r.column := List.mem_map_of_mem hk
    have hslots : SlotsSound (r.keys.map r.column) n (.filling r.place) := hs.node
    refine ⟨hs.children _ hmem, ?_⟩
    change n ≤ _
    rcases hslots.length _ hmem with h | ⟨-, h⟩ <;> omega
  selected hr hs k hk := Row.selected_of_slotsSound hr hs.node hk
  closed_congr := by
    intro keys column column' h
    change Column.tuple _ _ _ = Column.tuple _ _ _
    rw [fillSlots, fillSlots, List.map_map, List.map_map]
    congr 1
    exact List.map_congr_left h

/-! ### Records -/

/-- Fields under their keys. -/
def fieldsOf (keys : List String) (column : String → Column) : List (String × Column) :=
  keys.map fun k => (k, column k)

@[simp] theorem keys_fieldsOf (keys : List String) (column : String → Column) :
    (fieldsOf keys column).map Prod.fst = keys := by
  simp [fieldsOf, Function.comp_def]

@[simp] theorem columnsOf_fieldsOf (keys : List String) (column : String → Column) :
    columnsOf (fieldsOf keys column) = keys.map column := by
  simp [fieldsOf, columnsOf, Function.comp_def]

theorem fieldsOf_lookup {fields : List (String × Column)} (hnd : (fields.map Prod.fst).Nodup)
    (c : Column) : fieldsOf (fields.map Prod.fst) (fun k => (lookup fields k).getD c) = fields := by
  rw [fieldsOf, List.map_map]
  conv_rhs => rw [← List.map_id fields]
  refine List.map_congr_left fun f hf => ?_
  simp only [Function.comp_apply, id_eq]
  rw [lookup_of_mem hnd (show (f.1, f.2) ∈ fields from hf)]
  rfl

theorem fieldsOf_update {keys : List String} (hnd : keys.Nodup) {k : String} (hk : k ∈ keys)
    (column : String → Column) (c : Column) :
    fieldsOf keys (Function.update column k c)
      = setField (fieldsOf keys column) (keys.idxOf k) c := by
  induction keys with
  | nil => cases hk
  | cons key keys ih =>
    rw [List.nodup_cons] at hnd
    by_cases hkey : key = k
    · subst hkey
      have hrest : ∀ j ∈ keys, (j, Function.update column key c j) = (j, column j) := by
        intro j hj
        rw [Function.update_of_ne]
        rintro rfl
        exact hnd.1 hj
      rw [List.idxOf_cons_self, fieldsOf, List.map_cons, Function.update_self,
        List.map_congr_left hrest]
      rfl
    · have hmem : k ∈ keys := (List.mem_cons.mp hk).resolve_left (Ne.symm hkey)
      rw [List.idxOf_cons_ne _ hkey, fieldsOf, List.map_cons, Function.update_of_ne hkey]
      exact congrArg _ (ih hnd.2 hmem)

theorem fieldsOf_concat {keys : List String} {k : String} (hk : k ∉ keys)
    (column : String → Column) (c : Column) :
    fieldsOf (keys ++ [k]) (Function.update column k c) = fieldsOf keys column ++ [(k, c)] := by
  have hrest : ∀ j ∈ keys, (j, Function.update column k c j) = (j, column j) := by
    intro j hj
    rw [Function.update_of_ne]
    rintro rfl
    exact hk hj
  rw [fieldsOf, List.map_append, List.map_congr_left hrest, List.map_singleton,
    Function.update_self]
  rfl

theorem fieldIndex?_fieldsOf {keys : List String} (hnd : keys.Nodup) {k : String} (hk : k ∈ keys)
    (column : String → Column) : fieldIndex? (fieldsOf keys column) k = some (keys.idxOf k) := by
  refine fieldIndex?_of_getElem? (by rwa [keys_fieldsOf]) ?_
  rw [keys_fieldsOf]
  exact List.getElem?_idxOf hk

/-- Records of a name, of which `n` are complete. -/
def recordShape (name : Option String) (n : Nat) (settled declared : Bool) :
    RowShape String where
  rows := n
  key? _
    | .field key _ => some key
    | _ => none
  mayAdd
    | .field _ check => !(check && settled)
    | _ => false
  closer := .endRecord
  make r := .record name (fieldsOf r.keys r.column) n (.filling r.place) settled declared
  closed keys column :=
    .record name (fillFields n (fieldsOf keys column)) (n + 1) .closed true declared

section Record

variable {o : Options} {name : Option String} {n : Nat} {settled declared : Bool}
  {r : Row String} {p : Push} {c : Column}

theorem make_add_record {k : String} (hk : k ∉ r.keys) (d : Column) :
    (recordShape name n settled declared).make (r.add k d)
      = .record name (fieldsOf r.keys r.column ++ [(k, d)]) n
        (.filling (some (fieldsOf r.keys r.column).length)) settled declared := by
  rw [← fieldsOf_concat hk]
  have hplace : (r.add k d).place = some (fieldsOf r.keys r.column).length := by
    rw [Row.place, Row.add, Option.map_some, List.idxOf_append_of_notMem hk, List.idxOf_cons_self]
    simp [fieldsOf]
  rw [← hplace]
  rfl

theorem make_put_record (hr : r.Proper) {k : String} (hk : r.selected = some k) (d : Column) :
    (recordShape name n settled declared).make (r.put k d)
      = .record name (setField (fieldsOf r.keys r.column) (r.keys.idxOf k) d) n
        (.filling r.place) settled declared := by
  rw [← fieldsOf_update hr.nodup (hr.mem k hk)]
  rfl

theorem recordShape_step (hr : r.Proper)
    (h : Takes o ((recordShape name n settled declared).make r) p c) :
    (recordShape name n settled declared).Step o r p c := by
  have hidle := Row.isSlotActive_place hr
  rw [← columnsOf_fieldsOf] at hidle
  change Takes o (.record name (fieldsOf r.keys r.column) n (.filling r.place) settled declared)
    p c at h
  generalize hfields : fieldsOf r.keys r.column = fields at h hidle
  generalize hplace : r.place = slot at h hidle
  cases h with
  | first_null hc | own hc | other hc => cases hc
  | record_end hs =>
    rw [← hfields]
    exact .close (hidle.mp hs)
  | @record_field _ _ _ _ _ _ key check i d hs hi hc hlen =>
    rw [← hfields] at hi hc ⊢
    have hkey := fieldIndex?_eq_some hi
    rw [keys_fieldsOf] at hkey
    have hmem := List.mem_of_getElem? hkey
    rw [fieldIndex?_fieldsOf hr.nodup hmem] at hi
    cases hi
    rw [columnsOf_fieldsOf, Row.getElem?_columns hmem] at hc
    cases hc
    exact .select (hidle.mp hs) rfl hmem hlen
  | @record_new _ _ _ _ _ _ key check hs hi hcheck =>
    have hnew := fieldIndex?_eq_none.mp hi
    rw [← hfields, keys_fieldsOf] at hnew
    rw [← hfields, ← make_add_record hnew]
    refine .add (hidle.mp hs) rfl hnew ?_
    change (!(check && settled)) = true
    rw [hcheck]
    rfl
  | @record_slot _ _ _ i _ _ d d' _ hc hlen h =>
    obtain ⟨k, hk, rfl⟩ := Option.map_eq_some_iff.mp hplace
    rw [← hfields, columnsOf_fieldsOf, Row.getElem?_columns (hr.mem k hk)] at hc
    cases hc
    rw [← hfields, ← hplace, ← make_put_record hr hk]
    exact .slot hk hlen h

theorem takes_recordShape (hr : r.Proper) (h : (recordShape name n settled declared).Step o r p c) :
    Takes o ((recordShape name n settled declared).make r) p c := by
  have hidle := Row.isSlotActive_place hr
  rw [← columnsOf_fieldsOf] at hidle
  cases h with
  | @select _ k hi hp hk hlen =>
    cases p with
    | field key check =>
      obtain rfl : key = k := Option.some.inj hp
      refine .record_field (hidle.mpr hi) (fieldIndex?_fieldsOf hr.nodup hk _) ?_ hlen
      rw [columnsOf_fieldsOf]
      exact Row.getElem?_columns hk
    | _ => cases hp
  | @add _ k hi hp hk hadd =>
    cases p with
    | field key check =>
      obtain rfl : key = k := Option.some.inj hp
      rw [make_add_record hk]
      refine .record_new (hidle.mpr hi) (fieldIndex?_eq_none.mpr ?_) ?_
      · rwa [keys_fieldsOf]
      · have hnot : (!(check && settled)) = true := hadd
        rwa [Bool.not_eq_true'] at hnot
    | _ => cases hp
  | close hi => exact .record_end (hidle.mpr hi)
  | @slot _ k d hk hlen h =>
    have hplace : r.place = some (r.keys.idxOf k) := by rw [Row.place, hk, Option.map_some]
    rw [make_put_record hr hk, hplace]
    change Takes o (.record name (fieldsOf r.keys r.column) n (.filling r.place) settled declared)
      p _
    rw [hplace]
    refine .record_slot ?_ hlen h
    rw [columnsOf_fieldsOf, Row.getElem?_columns (hr.mem k hk)]

end Record

theorem lawful_recordShape (o : Options) (name : Option String) (n : Nat)
    (settled declared : Bool) : (recordShape name n settled declared).Lawful o where
  takes_iff hr := ⟨recordShape_step hr, takes_recordShape hr⟩
  selects := by
    intro keys p k h
    cases p <;> first | rfl | cases h
  key?_append h _ := h
  closes := rfl
  isActive _ := rfl
  length _ := rfl
  within := by
    intro r k hr hk
    have hi : r.keys.idxOf k < (fieldsOf r.keys r.column).length := by
      rw [fieldsOf, List.length_map]
      exact List.idxOf_lt_length_iff.mpr (hr.mem k hk)
    refine ⟨_, Within.here.record name n settled declared hi, fun c => ?_⟩
    rw [make_put_record hr hk, Row.place, hk]
    rfl
  slots := by
    intro r hs k hk
    have hmem : r.column k ∈ columnsOf (fieldsOf r.keys r.column) := by
      rw [columnsOf_fieldsOf]
      exact List.mem_map_of_mem hk
    have hslots : SlotsSound (columnsOf (fieldsOf r.keys r.column)) n (.filling r.place) :=
      hs.node.1
    refine ⟨hs.children _ hmem, ?_⟩
    change n ≤ _
    rcases hslots.length _ hmem with h | ⟨-, h⟩ <;> omega
  selected := by
    intro r hr hs k hk
    have hslots : SlotsSound (columnsOf (fieldsOf r.keys r.column)) n (.filling r.place) :=
      hs.node.1
    rw [columnsOf_fieldsOf] at hslots
    exact Row.selected_of_slotsSound hr hslots hk
  closed_congr := by
    intro keys column column' h
    change Column.record _ _ _ _ _ _ = Column.record _ _ _ _ _ _
    rw [fillFields, fillFields, fieldsOf, fieldsOf, List.map_map, List.map_map]
    congr 1
    exact List.map_congr_left fun k hk => congrArg (Prod.mk k) (h k hk)

/-! ### Every open tuple or record -/

/-- The slots of a tuple. -/
def tupleRow (slots : List Column) (n : Nat) (slot : Option Nat) : Row Nat :=
  ⟨List.range slots.length, fun i => (slots[i]?).getD (.unknown n), slot⟩

/-- The fields of a record. -/
def recordRow (fields : List (String × Column)) (n : Nat) (slot : Option Nat) : Row String :=
  ⟨fields.map Prod.fst, fun k => (lookup fields k).getD (.unknown n),
    slot.bind fun i => (fields.map Prod.fst)[i]?⟩

theorem proper_tupleRow {slots : List Column} {n : Nat} {slot : Option Nat}
    (hs : SlotsSound slots n (.filling slot)) : (tupleRow slots n slot).Proper :=
  ⟨List.nodup_range, fun i hi => List.mem_range.mpr (hs.selected i hi)⟩

theorem make_tupleRow {slots : List Column} {n : Nat} {slot : Option Nat}
    (hs : SlotsSound slots n (.filling slot)) :
    (tupleShape n).make (tupleRow slots n slot) = .tuple slots n (.filling slot) := by
  have hcolumns :
      (List.range slots.length).map (fun i => (slots[i]?).getD (.unknown n)) = slots := by
    refine List.ext_getElem (by simp) fun i hi hi' => ?_
    simp [hi']
  have hplace : (tupleRow slots n slot).place = slot := by
    cases slot with
    | none => rfl
    | some i =>
      have hi : i < (List.range slots.length).length := by simpa using hs.selected i rfl
      have hidx := List.nodup_range.idxOf_getElem i hi
      rw [List.getElem_range] at hidx
      rw [Row.place, tupleRow, Option.map_some, hidx]
  change Column.tuple _ n (.filling (tupleRow slots n slot).place) = _
  rw [hplace]
  exact congrArg (Column.tuple · n (.filling slot)) hcolumns

theorem proper_recordRow {fields : List (String × Column)} (hnd : (fields.map Prod.fst).Nodup)
    (n : Nat) (slot : Option Nat) : (recordRow fields n slot).Proper := by
  refine ⟨hnd, fun k hk => ?_⟩
  obtain ⟨i, rfl, hi⟩ := Option.bind_eq_some_iff.mp hk
  exact List.mem_of_getElem? hi

theorem make_recordRow {name : Option String} {fields : List (String × Column)} {n : Nat}
    {slot : Option Nat} {settled declared : Bool} (hnd : (fields.map Prod.fst).Nodup)
    (hs : SlotsSound (columnsOf fields) n (.filling slot)) :
    (recordShape name n settled declared).make (recordRow fields n slot)
      = .record name fields n (.filling slot) settled declared := by
  have hplace : (recordRow fields n slot).place = slot := by
    cases slot with
    | none => rfl
    | some i =>
      have hi : i < (fields.map Prod.fst).length := by
        simpa [columnsOf] using hs.selected i rfl
      have hidx := hnd.idxOf_getElem i hi
      rw [Row.place, recordRow, Option.bind_some, List.getElem?_eq_getElem hi, Option.map_some,
        hidx]
  change Column.record name (fieldsOf _ _) n (.filling (recordRow fields n slot).place) _ _ = _
  rw [hplace]
  exact congrArg (Column.record name · n (.filling slot) settled declared) (fieldsOf_lookup hnd _)

end Columnar
