import Mathlib.Data.List.Basic
import Columnar.Column.Push

/-!
# The nodes of a column

A column is a tree.  What is said of every node of it is proved by induction over the
nodes directly below each one, whatever kind of column it is; and a push into the column
at a place of a list is a push into the column that is there.

## Main definitions

* `Column.children` — the nodes directly below a column.
* `Column.class?` — the class of the elements of a column that is no wrapper.

## Main results

* `Column.induct` — induction over the nodes of a column.
* `Column.pushAt_eq`, `Column.pushField_eq` — a push at a place, by the column there.
-/

namespace Columnar

theorem Pushed.inside_inside {α β γ : Type} (g : β → γ) (f : α → β) (x : Pushed α) :
    (x.inside f).inside g = x.inside (g ∘ f) := by
  cases x <;> rfl

namespace Column

/-- The nodes directly below a column. -/
def children : Column → List Column
  | .option _ content => [content]
  | .list _ content _ => [content]
  | .tuple slots _ _ => slots
  | .record _ fields _ _ _ _ => columnsOf fields
  | .union _ _ children _ => children
  | _ => []

theorem sizeOf_lt_of_mem_columnsOf {fields : List (String × Column)} {c : Column}
    (h : c ∈ columnsOf fields) : sizeOf c < sizeOf fields := by
  obtain ⟨⟨key, d⟩, hmem, rfl⟩ := List.mem_map.mp h
  have hlt := List.sizeOf_lt_of_mem hmem
  simp only [Prod.mk.sizeOf_spec] at hlt
  change sizeOf d < _
  omega

theorem sizeOf_lt_of_mem_children {c d : Column} (h : d ∈ c.children) : sizeOf d < sizeOf c := by
  cases c with
  | option index content =>
    rw [children, List.mem_singleton] at h
    subst h
    simp only [option.sizeOf_spec]
    omega
  | list offsets content isOpen =>
    rw [children, List.mem_singleton] at h
    subst h
    simp only [list.sizeOf_spec]
    omega
  | tuple slots n filling =>
    have hlt := List.sizeOf_lt_of_mem (show d ∈ slots from h)
    simp only [tuple.sizeOf_spec]
    omega
  | record name fields n filling settled declared =>
    have hlt := sizeOf_lt_of_mem_columnsOf (show d ∈ columnsOf fields from h)
    simp only [record.sizeOf_spec]
    omega
  | union tags index children current =>
    have hlt := List.sizeOf_lt_of_mem (show d ∈ children from h)
    simp only [union.sizeOf_spec]
    omega
  | unknown | bool | int64 | float64 | complex128 | time | string => simp [children] at h

/-- Induction over a column: what holds of a node once it holds of the nodes directly below
it holds of every column. -/
theorem induct {motive : Column → Prop}
    (node : ∀ c, (∀ d ∈ c.children, motive d) → motive c) (c : Column) : motive c :=
  node c fun d _hd => induct node d
termination_by sizeOf c
decreasing_by exact sizeOf_lt_of_mem_children _hd

/-! ### Classes -/

/-- The class of the elements of a column that is no wrapper. -/
def class? : Column → Option ElementClass
  | .bool _ => some .bool
  | .int64 _ => some .number
  | .float64 _ => some .number
  | .complex128 _ => some .number
  | .time kind unit _ => some (.time kind unit)
  | .string encoding _ _ => some (.string encoding)
  | .list _ _ _ => some .list
  | .tuple slots _ _ => some (.tuple slots.length)
  | .record name _ _ _ _ _ => some (.record name)
  | _ => none

theorem admits_iff {k : ElementClass} {c : Column} : admits k c = true ↔ c.class? = some k := by
  cases c <;>
    simp only [admits, class?, beq_iff_eq, Option.some.injEq, reduceCtorEq, Bool.false_eq_true] <;>
    exact eq_comm

/-! ### Places of a list -/

theorem lengthAt_eq : ∀ (cs : List Column) (i : Nat), lengthAt cs i = (cs[i]?.map length).getD 0
  | [], _ => rfl
  | _ :: _, 0 => rfl
  | _ :: cs, i + 1 => by simpa [lengthAt] using lengthAt_eq cs i

theorem isActiveAt_eq : ∀ (cs : List Column) (i : Nat),
    isActiveAt cs i = (cs[i]?.map isActive).getD false
  | [], _ => rfl
  | _ :: _, 0 => rfl
  | _ :: cs, i + 1 => by simpa [isActiveAt] using isActiveAt_eq cs i

theorem columnsOf_getElem? (fields : List (String × Column)) (i : Nat) :
    (columnsOf fields)[i]? = fields[i]?.map Prod.snd := by
  simp [columnsOf]

/-- Puts a column in the place of the column of a field, under the same key. -/
def setField : List (String × Column) → Nat → Column → List (String × Column)
  | [], _, _ => []
  | (key, _) :: rest, 0, c => (key, c) :: rest
  | f :: rest, i + 1, c => f :: setField rest i c

@[simp] theorem keys_setField : ∀ (fields : List (String × Column)) (i : Nat) (c : Column),
    (setField fields i c).map Prod.fst = fields.map Prod.fst
  | [], _, _ => rfl
  | _ :: _, 0, _ => rfl
  | _ :: rest, i + 1, c => by simp [setField, keys_setField rest i c]

@[simp] theorem columnsOf_setField : ∀ (fields : List (String × Column)) (i : Nat) (c : Column),
    columnsOf (setField fields i c) = (columnsOf fields).set i c
  | [], _, _ => rfl
  | _ :: _, 0, _ => rfl
  | f :: rest, i + 1, c => by
    simpa [setField, columnsOf] using columnsOf_setField rest i c

/-- What is put in the place of one is found there. -/
theorem getElem?_set_of_getElem? {α : Type} {xs : List α} {i : Nat} {x : α}
    (h : xs[i]? = some x) (y : α) : (xs.set i y)[i]? = some y :=
  List.getElem?_set_self (List.getElem?_eq_some_iff.mp h).1

theorem getElem?_setField {fields : List (String × Column)} {i : Nat} {c : Column}
    (h : (columnsOf fields)[i]? = some c) (d : Column) :
    (columnsOf (setField fields i d))[i]? = some d := by
  rw [columnsOf_setField, getElem?_set_of_getElem? h]

theorem fieldIndex?_eq (fields : List (String × Column)) (key : String) :
    fieldIndex? fields key = (fields.map Prod.fst).findIdx? (· == key) := by
  rw [List.findIdx?_map]
  rfl

/-- Fields with the same keys are found in the same places. -/
theorem fieldIndex?_congr {fields fields' : List (String × Column)} (key : String)
    (h : fields'.map Prod.fst = fields.map Prod.fst) :
    fieldIndex? fields' key = fieldIndex? fields key := by
  rw [fieldIndex?_eq, h, ← fieldIndex?_eq]

/-- A field that is added is found behind the others. -/
theorem fieldIndex?_concat {fields : List (String × Column)} {key : String}
    (h : fieldIndex? fields key = none) (c : Column) :
    fieldIndex? (fields ++ [(key, c)]) key = some fields.length := by
  rw [fieldIndex?] at h ⊢
  rw [List.findIdx?_append, h]
  simp

theorem fieldIndex?_of_getElem? {fields : List (String × Column)} {key : String} {i : Nat}
    (hnd : (fields.map Prod.fst).Nodup) (hkey : (fields.map Prod.fst)[i]? = some key) :
    fieldIndex? fields key = some i := by
  obtain ⟨hi, hget⟩ := List.getElem?_eq_some_iff.mp hkey
  rw [fieldIndex?_eq, List.findIdx?_eq_some_iff_getElem]
  refine ⟨hi, by simpa using hget, fun j hj hj' => ?_⟩
  have heq : (fields.map Prod.fst)[i]? = (fields.map Prod.fst)[j]? := by
    rw [hkey, List.getElem?_eq_getElem (Nat.lt_trans hj hi), beq_iff_eq.mp hj']
  exact absurd ((List.getElem?_inj hi hnd).mp heq) (Nat.ne_of_gt hj)

theorem fieldIndex?_eq_none {fields : List (String × Column)} {key : String} :
    fieldIndex? fields key = none ↔ key ∉ fields.map Prod.fst := by
  rw [fieldIndex?, List.findIdx?_eq_none_iff]
  constructor
  · intro h hmem
    obtain ⟨f, hf, rfl⟩ := List.mem_map.mp hmem
    simpa using h f hf
  · intro h f hf
    rw [beq_eq_false_iff_ne]
    rintro rfl
    exact h (List.mem_map_of_mem hf)

theorem fieldIndex?_eq_some {fields : List (String × Column)} {key : String} {i : Nat}
    (h : fieldIndex? fields key = some i) : (fields.map Prod.fst)[i]? = some key := by
  obtain ⟨hi, hkey, -⟩ := List.findIdx?_eq_some_iff_getElem.mp h
  rw [List.getElem?_map, List.getElem?_eq_getElem hi, Option.map_some, ← beq_iff_eq.mp hkey]

theorem mem_fields {fields : List (String × Column)} {i : Nat} {key : String}
    {c : Column} (hkey : (fields.map Prod.fst)[i]? = some key)
    (hc : (columnsOf fields)[i]? = some c) : (key, c) ∈ fields := by
  rw [List.getElem?_map, Option.map_eq_some_iff] at hkey
  obtain ⟨f, hf, rfl⟩ := hkey
  rw [columnsOf_getElem?, hf] at hc
  cases hc
  exact List.mem_of_getElem? hf

/-- The fields after the column of one of them is replaced. -/
theorem mem_setField {fields : List (String × Column)} {i : Nat} {key k : String}
    {c' d : Column} (hnd : (fields.map Prod.fst).Nodup)
    (hkey : (fields.map Prod.fst)[i]? = some key) :
    (k, d) ∈ setField fields i c' ↔ k = key ∧ d = c' ∨ k ≠ key ∧ (k, d) ∈ fields := by
  induction fields generalizing i with
  | nil => cases hkey
  | cons f rest ih =>
    obtain ⟨k₀, c₀⟩ := f
    rw [List.map_cons, List.nodup_cons] at hnd
    cases i with
    | zero =>
      cases hkey
      have hne : ∀ {e : Column}, (k, e) ∈ rest → k ≠ k₀ := by
        rintro e hmem rfl
        exact hnd.1 (List.mem_map.mpr ⟨_, hmem, rfl⟩)
      simp only [setField, List.mem_cons, Prod.mk.injEq]
      constructor
      · rintro (h | h)
        · exact .inl h
        · exact .inr ⟨hne h, .inr h⟩
      · rintro (h | ⟨h, h' | h'⟩)
        · exact .inl h
        · exact absurd h'.1 h
        · exact .inr h'
    | succ i =>
      have hne : k₀ ≠ key := by
        rintro rfl
        exact hnd.1 (List.mem_of_getElem? hkey)
      simp only [setField, List.mem_cons, Prod.mk.injEq, ih hnd.2 hkey]
      constructor
      · rintro (⟨rfl, rfl⟩ | h | ⟨h, h'⟩)
        · exact .inr ⟨hne, .inl ⟨rfl, rfl⟩⟩
        · exact .inl h
        · exact .inr ⟨h, .inr h'⟩
      · rintro (h | ⟨h, h' | h'⟩)
        · exact .inr (.inl h)
        · exact .inl h'
        · exact .inr (.inr ⟨h, h'⟩)

/-- A push at a place is a push into the column there. -/
theorem pushAt_eq (o : Options) (p : Push) : ∀ (cs : List Column) (i : Nat),
    pushAt o cs i p = match cs[i]? with
      | some c => (push o c p).inside (cs.set i)
      | none => .ok cs
  | [], _ => by simp [pushAt]
  | _ :: _, 0 => by simp only [pushAt, List.getElem?_cons_zero]; rfl
  | c :: cs, i + 1 => by
    rw [pushAt, pushAt_eq o p cs i, List.getElem?_cons_succ]
    cases cs[i]? with
    | none => rfl
    | some d => exact Pushed.inside_inside _ _ _

/-- A push at the place of a field is a push into the column of the field. -/
theorem pushField_eq (o : Options) (p : Push) : ∀ (fields : List (String × Column)) (i : Nat),
    pushField o fields i p = match (columnsOf fields)[i]? with
      | some c => (push o c p).inside (setField fields i)
      | none => .ok fields
  | [], _ => by simp [pushField, columnsOf]
  | (key, c) :: rest, 0 => by
    simp only [pushField, columnsOf, List.map_cons, List.getElem?_cons_zero]
    cases push o c p <;> rfl
  | (key, c) :: rest, i + 1 => by
    have ih := pushField_eq o p rest i
    simp only [pushField, columnsOf, List.map_cons, List.getElem?_cons_succ] at ih ⊢
    rw [ih]
    cases (rest.map Prod.snd)[i]? with
    | none => rfl
    | some d => exact Pushed.inside_inside _ _ _

/-! ### What holds of all columns of a list -/

theorem forall_mem_set {P : Column → Prop} {cs : List Column} {i : Nat} {c' : Column}
    (hcs : ∀ d ∈ cs, P d) (hc' : P c') : ∀ d ∈ cs.set i c', P d := by
  intro d hd
  rcases List.mem_or_eq_of_mem_set hd with hd | rfl
  · exact hcs d hd
  · exact hc'

theorem forall_mem_concat {P : Column → Prop} {cs : List Column} {c' : Column}
    (hcs : ∀ d ∈ cs, P d) (hc' : P c') : ∀ d ∈ cs ++ [c'], P d := by
  intro d hd
  rcases List.mem_append.mp hd with hd | hd
  · exact hcs d hd
  · rw [List.mem_singleton.mp hd]
    exact hc'

end Column

end Columnar
