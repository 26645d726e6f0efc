import Columnar.Proofs.Column.Preservation

/-!
# Wider columns

A column may hold what another one holds and have room for more: it is optional though
nothing is missing, a union though there is one class only, it has fields that no record was
given, or its numbers are wider.  Clearing leaves such columns behind.

## Main definitions

* `Column.Widened` — a column holds what another one holds, and has room for more.

## Main results

* `Column.Widened.refl`, `Column.Widened.length_eq` — what wider columns share.
* `Column.widened_empty_iff` — what is wider than nothing at all.
-/

namespace Columnar

namespace Column

/-- The number of elements, with the one that is still open. -/
def begun (c : Column) : Nat := c.length + c.isActive.toNat

/-- A column holds what another one holds, and has room for more. -/
inductive Widened : Column → Column → Prop
  /-- Nothing at all, in a column of any shape. -/
  | empty {d : Column} (hd : d.clear = d) : Widened (.unknown 0) d
  /-- Missing elements alone. -/
  | nulls (n : Nat) : Widened (.unknown n) (.unknown n)
  /-- Missing elements alone, where others may come. -/
  | nulls_option (n : Nat) {d : Column} (hd : d.clear = d) :
      Widened (.unknown n) (.option (.replicate n none) d)
  /-- Elements that may be missing. -/
  | option {index : Array (Option Nat)} {c d : Column} (h : Widened c d) :
      Widened (.option index c) (.option index d)
  /-- Elements none of which is missing, where some may be. -/
  | present {c d : Column} (hu : c.kind ≠ .unknown) (ho : c.kind ≠ .option) (h : Widened c d) :
      Widened c (.option (allPresent c.begun) d)
  /-- Truth values. -/
  | bool (values : Array Bool) : Widened (.bool values) (.bool values)
  /-- Integers. -/
  | int64 (values : Array Int64) : Widened (.int64 values) (.int64 values)
  /-- Integers as reals. -/
  | int64_float64 (values : Array Int64) :
      Widened (.int64 values) (.float64 (values.map realOfInt))
  /-- Integers as complex numbers. -/
  | int64_complex128 (values : Array Int64) :
      Widened (.int64 values) (.complex128 (values.map complexOfInt))
  /-- Reals. -/
  | float64 (values : Array Binary64) : Widened (.float64 values) (.float64 values)
  /-- Reals as complex numbers. -/
  | float64_complex128 (values : Array Binary64) :
      Widened (.float64 values) (.complex128 (values.map Complex.ofReal))
  /-- Complex numbers. -/
  | complex128 (values : Array Complex) : Widened (.complex128 values) (.complex128 values)
  /-- Times of one kind and unit. -/
  | time (kind : TimeKind) (unit : TimeUnit) (counts : Array Int64) :
      Widened (.time kind unit counts) (.time kind unit counts)
  /-- Strings of one encoding. -/
  | string (encoding : Encoding) (offsets : Array Nat) (data : Array UInt8) :
      Widened (.string encoding offsets data) (.string encoding offsets data)
  /-- Lists, by their items. -/
  | list {offsets : Array Nat} {c d : Column} {isOpen : Bool} (h : Widened c d) :
      Widened (.list offsets c isOpen) (.list offsets d isOpen)
  /-- Tuples, by their slots. -/
  | tuple {slots slots' : List Column} {n : Nat} {filling : Filling}
      (hlen : slots.length = slots'.length)
      (h : ∀ (i : Nat) (d : Column), slots'[i]? = some d →
        Widened ((slots[i]?).getD (.unknown n)) d) :
      Widened (.tuple slots n filling) (.tuple slots' n filling)
  /-- Records, by their fields; further fields are missing in all of them. -/
  | record {name : Option String} {fields fields' : List (String × Column)} {n : Nat}
      {filling : Filling} {settled declared : Bool}
      (hkeys : fields.map Prod.fst <+: fields'.map Prod.fst)
      (h : ∀ (i : Nat) (d : Column), (columnsOf fields')[i]? = some d →
        Widened (((columnsOf fields)[i]?).getD (.unknown n)) d) :
      Widened (.record name fields n filling settled declared)
        (.record name fields' n filling settled declared)
  /-- Elements of several classes; further classes have none. -/
  | union {tags index : Array Nat} {children children' : List Column} {current : Option Nat}
      (hclass : children.map class? <+: children'.map class?)
      (h : ∀ (i : Nat) (d : Column), children'[i]? = some d →
        Widened ((children[i]?).getD (.unknown 0)) d) :
      Widened (.union tags index children current) (.union tags index children' current)
  /-- Elements of one class, where there may be further ones. -/
  | single {c d : Column} {rest : List Column} {k : ElementClass} (hc : c.class? = some k)
      (hd : d.class? = some k) (h : Widened c d) (hrest : ∀ e ∈ rest, e.clear = e) :
      Widened c (.union (.replicate c.begun 0) (.range c.begun) (d :: rest) (openTag 0 c))

/-! ### What wider columns share -/

theorem clear_clear (c : Column) : c.clear.clear = c.clear := by
  induction c using Column.induct with
  | node c ih =>
    have hmap : ∀ {cs : List Column}, (∀ d ∈ cs, d.clear.clear = d.clear) →
        (cs.map clear).map clear = cs.map clear := by
      intro cs h
      rw [List.map_map]
      exact List.map_congr_left h
    cases c with
    | option index content | list offsets content isOpen =>
      simp only [clear, ih content (List.mem_singleton_self _)]
    | tuple slots n filling =>
      simp only [clear, clearAll_eq]
      exact congrArg (tuple · 0 .closed) (hmap ih)
    | union tags index children current =>
      simp only [clear, clearAll_eq]
      exact congrArg (union #[] #[] · none) (hmap ih)
    | record name fields n filling settled declared =>
      simp only [clear, clearFields_eq, List.map_map]
      congr 1
      refine List.map_congr_left fun f hf => ?_
      exact congrArg (Prod.mk f.1) (ih f.2 (List.mem_map_of_mem hf))
    | _ => simp only [clear]

theorem isSome_openTag (i : Nat) (c : Column) : (openTag i c).isSome = c.isActive := by
  unfold openTag
  split <;> simp_all

/-- A column is wider than itself. -/
theorem Widened.refl (c : Column) : Widened c c := by
  induction c using Column.induct with
  | node c ih =>
    cases c with
    | unknown n => exact .nulls n
    | option index content => exact .option (ih content (List.mem_singleton_self _))
    | bool values => exact .bool values
    | int64 values => exact .int64 values
    | float64 values => exact .float64 values
    | complex128 values => exact .complex128 values
    | time kind unit counts => exact .time kind unit counts
    | string encoding offsets data => exact .string encoding offsets data
    | list offsets content isOpen => exact .list (ih content (List.mem_singleton_self _))
    | tuple slots n filling =>
      refine .tuple rfl ?_
      intro i d hd
      rw [hd]
      exact ih d (List.mem_of_getElem? hd)
    | record name fields n filling settled declared =>
      refine .record (List.prefix_refl _) ?_
      intro i d hd
      rw [hd]
      exact ih d (List.mem_of_getElem? hd)
    | union tags index children current =>
      refine .union (List.prefix_refl _) ?_
      intro i d hd
      rw [hd]
      exact ih d (List.mem_of_getElem? hd)

/-- A wider column has as many elements, and is open if the column is. -/
theorem Widened.length_eq {c d : Column} (h : Widened c d) :
    d.length = c.length ∧ d.isActive = c.isActive := by
  induction h with
  | empty hd =>
    rw [← hd]
    exact empty_clear _
  | nulls_option n hd =>
    have hactive := (empty_clear (Column.clear ‹_›)).2
    rw [clear_clear, hd] at hactive
    simp [length, isActive, hactive]
  | option h ih => simp [length, isActive, ih.2]
  | present _ _ _ ih => simp [length, isActive, allPresent, begun, ih.2]
  | single => simp [length, isActive, begun, isSome_openTag]
  | _ => simp [length, isActive]

theorem map_clear_eq_iff {cs : List Column} : cs.map clear = cs ↔ ∀ c ∈ cs, c.clear = c := by
  induction cs with
  | nil => simp
  | cons c cs ih => simp [ih]

/-- Columns of fields that are cleared one by one are cleared as columns. -/
theorem clearFields_eq_iff {fields : List (String × Column)} :
    clearFields fields = fields ↔ ∀ c ∈ columnsOf fields, c.clear = c := by
  rw [clearFields_eq]
  induction fields with
  | nil => simp [columnsOf]
  | cons f rest ih =>
    have hcolumns : columnsOf (f :: rest) = f.2 :: columnsOf rest := rfl
    rw [List.map_cons, List.cons.injEq, ih, hcolumns, List.forall_mem_cons, Prod.ext_iff]
    simp

/-- A column that is wider than one without elements has none. -/
theorem Widened.clear_eq {c d : Column} (h : Widened c d) (hc : c.clear = c) : d.clear = d := by
  induction h with
  | empty hd => exact hd
  | nulls_option n hd =>
    rw [clear, unknown.injEq] at hc
    rw [clear, hd, ← hc]
    rfl
  | option _ ih =>
    rw [clear, option.injEq] at hc
    rw [clear, ih hc.2, ← hc.1]
  | @present c _ _ _ _ ih =>
    have hbegun : c.begun = 0 := by
      rw [begun, ← hc, (empty_clear c).1, (empty_clear c).2]
      rfl
    rw [clear, ih hc, hbegun]
    simp [allPresent]
  | int64_float64 | int64_complex128 | float64_complex128 =>
    simp only [clear, int64.injEq, float64.injEq] at hc
    simp [clear, ← hc]
  | list _ ih =>
    rw [clear, list.injEq] at hc
    rw [clear, ih hc.2.1, ← hc.1, ← hc.2.2]
  | @tuple slots slots' n filling hlen _ ih =>
    rw [clear, clearAll_eq, tuple.injEq, map_clear_eq_iff] at hc
    obtain ⟨hslots, rfl, rfl⟩ := hc
    rw [clear, clearAll_eq]
    refine congrArg (Column.tuple · 0 .closed) (map_clear_eq_iff.mpr fun d hd => ?_)
    obtain ⟨i, hi, rfl⟩ := List.mem_iff_getElem.mp hd
    have hi' : i < slots.length := hlen ▸ hi
    refine ih i _ (List.getElem?_eq_getElem hi) ?_
    rw [List.getElem?_eq_getElem hi']
    exact hslots _ (List.getElem_mem hi')
  | @record name fields fields' n filling settled declared _ _ ih =>
    rw [clear, record.injEq, clearFields_eq_iff] at hc
    obtain ⟨-, hfields, rfl, rfl, hsettled, -⟩ := hc
    rw [clear, ← hsettled]
    refine congrArg (Column.record name · 0 .closed declared declared)
      (clearFields_eq_iff.mpr fun d hd => ?_)
    obtain ⟨i, hi, rfl⟩ := List.mem_iff_getElem.mp hd
    refine ih i _ (List.getElem?_eq_getElem hi) ?_
    cases hf : (columnsOf fields)[i]? with
    | none => rfl
    | some c => exact hfields c (List.mem_of_getElem? hf)
  | @union tags index children children' current _ _ ih =>
    rw [clear, clearAll_eq, union.injEq, map_clear_eq_iff] at hc
    obtain ⟨rfl, rfl, hchildren, rfl⟩ := hc
    rw [clear, clearAll_eq]
    refine congrArg (Column.union #[] #[] · none) (map_clear_eq_iff.mpr fun d hd => ?_)
    obtain ⟨i, hi, rfl⟩ := List.mem_iff_getElem.mp hd
    refine ih i _ (List.getElem?_eq_getElem hi) ?_
    cases hf : children[i]? with
    | none => rfl
    | some c => exact hchildren c (List.mem_of_getElem? hf)
  | @single c d rest k _ _ _ hrest ih =>
    have hbegun : c.begun = 0 ∧ c.isActive = false := by
      rw [begun, ← hc, (empty_clear c).1, (empty_clear c).2]
      exact ⟨rfl, rfl⟩
    rw [clear, clearAll_eq, List.map_cons, ih hc, map_clear_eq_iff.mpr hrest, openTag, hbegun.2,
      hbegun.1]
    rfl
  | _ => exact hc

/-- What is wider than nothing at all is a column without elements. -/
theorem widened_empty_iff {d : Column} : Widened (.unknown 0) d ↔ d.clear = d :=
  ⟨fun h => h.clear_eq rfl, .empty⟩

end Column

end Columnar
