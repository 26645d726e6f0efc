import Mathlib.Data.List.DropRight
import Columnar.Proofs.Growth

/-!
# Storage over many calls

Storage holds what was added since it was last cleared.  It has room for all of that, and it keeps
the room that it has: the capacity changes only if what is added does not fit, and then it takes
the first term that is large enough of a sequence that starts with the old capacity.  The sequence
rises by at least one at each step, so there is such a term whatever the factor, and the terms up
to it are sizes if what is needed is one.

## Main definitions

* `following` — the term behind a term.
* `IsFirstTerm` — the first term of a sequence that is large enough.
* `Edit`, `Growable.editAll` — calls that add elements or remove all of them.
* `Edit.kept` — what was added since the last clearing.
* `Growable.Grows` — how a call changes the capacity.

## Main results

* `isFirstTerm_growTo` — **growing takes the first term that is large enough.**
* `Growable.editAll?_eq_some_iff` — calls go through just when all storage on the way can be had.
* `Growable.store_run` — **storage holds what was added since it was last cleared, and grows only
  if it must.**
-/

namespace Columnar

open Binary64

/-! ### The next whole number -/

theorem ceil_div {a d : Nat} (hd : 0 < d) : ⌈(a / d : ℚ)⌉₊ = (a + (d - 1)) / d := by
  refine eq_of_forall_ge_iff fun n => ?_
  rw [Nat.ceil_le, div_le_iff₀ (Nat.cast_pos.mpr hd), Nat.div_le_iff_le_mul_add_pred hd,
    Nat.mul_comm d n]
  exact ⟨fun h => Nat.add_le_add_right (by exact_mod_cast h) _,
    fun h => by exact_mod_cast Nat.le_of_add_le_add_right h⟩

/-- A real brought up to the next whole number that is a size; no number counts as zero. -/
def roundedUp (x : Binary64) : Nat := if x.isNaN then 0 else min ⌈x.value⌉₊ maxSize

theorem roundedUp_le (x : Binary64) : roundedUp x ≤ maxSize := by
  unfold roundedUp
  split_ifs
  · exact Nat.zero_le _
  · exact Nat.min_le_right _ _

theorem maxSize_le : maxSize ≤ powerOfTwo 1024 :=
  (show maxSize ≤ powerOfTwo 64 by decide).trans (powerOfTwo_le_powerOfTwo (by decide))

theorem ceilSaturating_eq_roundedUp (x : Binary64) : x.ceilSaturating maxSize = roundedUp x := by
  unfold ceilSaturating roundedUp
  cases hnan : x.isNaN with
  | true => rw [Bool.true_or, if_pos rfl, if_pos rfl]
  | false =>
    rw [Bool.false_or, if_neg Bool.false_ne_true]
    cases hsign : x.negative with
    | true =>
      have hvalue : x.value ≤ 0 := by
        rw [value, hsign, signOf, if_pos rfl, neg_one_mul, neg_nonpos]
        exact div_nonneg (Nat.cast_nonneg _) (Nat.cast_nonneg _)
      rw [if_pos rfl, Nat.ceil_eq_zero.mpr hvalue, Nat.zero_min]
    | false =>
      rw [if_neg Bool.false_ne_true]
      split_ifs with hinfinite
      · rw [value_of_isInfinite hsign hinfinite, Nat.ceil_natCast, Nat.min_eq_right maxSize_le]
      · rw [value_of_not_negative hsign, ceil_div zero_lt_unitsOfOne]

/-! ### The sequence of capacities -/

/-- The capacity behind `c`: the larger of `c + 1` and the product with the factor, rounded up. -/
def following (factor : Binary64) (c : Nat) : Nat :=
  max (c + 1) (roundedUp ((Binary64.ofNat c).mul factor))

theorem nextCapacity_eq_following (factor : Binary64) :
    nextCapacity factor = following factor := by
  funext c
  rw [nextCapacity, following, ceilSaturating_eq_roundedUp, Nat.max_comm]

/-- The first term that is large enough of `c`, `next c`, `next (next c)` and so on. -/
structure IsFirstTerm (next : Nat → Nat) (c needed target : Nat) : Prop where
  /-- It is large enough. -/
  enough : needed ≤ target
  /-- It is a term, and all those before it are too small. -/
  first : ∃ i, target = next^[i] c ∧ ∀ j < i, next^[j] c < needed

/-- No term of such a sequence is more than a size, as long as those before it are too small. -/
def StaysInRange (next : Nat → Nat) (c needed : Nat) : Prop :=
  ∀ i, (∀ j < i, next^[j] c < needed) → next^[i] c ≤ maxSize

section

variable (factor : Binary64) (needed c : Nat)

theorem le_growTo : needed ≤ growTo factor needed c := by
  fun_induction growTo factor needed c with
  | case1 c hlt ih => exact ih
  | case2 c hle => exact Nat.not_lt.mp hle

/-- **Growing takes the first term that is large enough**, whatever the factor. -/
theorem isFirstTerm_growTo : IsFirstTerm (following factor) c needed (growTo factor needed c) := by
  refine ⟨le_growTo factor needed c, ?_⟩
  rw [← nextCapacity_eq_following]
  rcases Nat.lt_or_ge c needed with hlt | hge
  · obtain ⟨i, heq, hbelow⟩ := exists_growTo_eq (x := factor) hlt
    -- the terms rise, so none before the last but one is larger than it
    refine ⟨i + 1, heq, fun j hj => ?_⟩
    exact (iterate_nextCapacity_mono factor c (Nat.le_of_lt_succ hj)).trans_lt hbelow
  · exact ⟨0, growTo_of_le hge, fun j hj => absurd hj (Nat.not_lt_zero j)⟩

variable {factor needed c}

/-- All terms up to the first one that is large enough are sizes. -/
theorem staysInRange (hc : c ≤ maxSize) (hneeded : needed ≤ maxSize) :
    StaysInRange (following factor) c needed := by
  intro i hbelow
  cases i with
  | zero => exact hc
  | succ i =>
    -- the term before is less than what is needed, and products are cut off at the greatest size
    rw [Function.iterate_succ_apply']
    exact max_le ((hbelow i (Nat.lt_succ_self i)).trans_le hneeded) (roundedUp_le _)

theorem le_growTo_self : c ≤ growTo factor needed c := by
  obtain ⟨i, heq, -⟩ := (isFirstTerm_growTo factor needed c).first
  rw [heq, ← nextCapacity_eq_following]
  exact iterate_nextCapacity_mono factor c i.zero_le

end

/-! ### Calls -/

/-- A call that adds elements, or removes all of them. -/
inductive Edit (α : Type) where
  /-- Elements are added. -/
  | add (call : Addition α)
  /-- All elements are removed. -/
  | clear

namespace Edit

variable {α : Type}

/-- The elements that a call adds. -/
def items : Edit α → List α
  | add call => call.items.toList
  | clear => []

/-- Whether a call removes all elements. -/
def isClear : Edit α → Bool
  | add _ => false
  | clear => true

/-- What was added since the last clearing, in order. -/
def kept (edits : List (Edit α)) : List α := (edits.rtakeWhile (!·.isClear)).flatMap items

theorem kept_concat (edits : List (Edit α)) (e : Edit α) :
    kept (edits ++ [e]) = if e.isClear then [] else kept edits ++ e.items := by
  unfold kept
  cases e with
  | add call =>
    rw [List.rtakeWhile_concat_pos _ _ _ rfl, List.flatMap_append]
    simp [isClear]
  | clear => rw [List.rtakeWhile_concat_neg _ _ _ (by simp [isClear])]; rfl

end Edit

namespace Growable

variable {α : Type}

/-- The storage that a call asks for, with what it leaves in it. -/
def edit (g : Growable α) : Edit α → Growable α
  | .add call => g.add call
  | .clear => g.clear

/-- The storage after calls, one after the other. -/
def editAll (g : Growable α) (edits : List (Edit α)) : Growable α := edits.foldl edit g

/-- The storage after calls; nothing if some storage on the way cannot be had. -/
def editAll? [FixedWidth α] (g : Growable α) (edits : List (Edit α)) : Option (Growable α) :=
  edits.foldlM (fun g e => (g.edit e).allocated?) g

/-- How a call changes the capacity. -/
structure Grows (g : Growable α) (e : Edit α) : Prop where
  /-- The capacity never decreases. -/
  le : g.capacity ≤ (g.edit e).capacity
  /-- It does not change if all that is added fits. -/
  same : g.size + e.items.length ≤ g.capacity → (g.edit e).capacity = g.capacity
  /-- Otherwise it takes the first term that is large enough. -/
  first : g.capacity < g.size + e.items.length →
    IsFirstTerm (following g.factor) g.capacity (g.size + e.items.length) (g.edit e).capacity

/-! ### One call -/

section

variable (g : Growable α) (e : Edit α)

theorem items_edit : (g.edit e).items.toList
    = (if e.isClear then [] else g.items.toList) ++ e.items := by
  cases e with
  | add call => rw [edit, items_add, Array.toList_append]; rfl
  | clear => rfl

@[simp] theorem factor_edit : (g.edit e).factor = g.factor := by
  cases e with
  | add call => exact factor_add g call
  | clear => rfl

/-- There is room for all that a call leaves. -/
theorem size_le_capacity_edit : (g.edit e).size ≤ (g.edit e).capacity := by
  cases e with
  | add call =>
    rw [edit, size_add, capacity_add]
    exact le_growTo _ _ _
  | clear => exact Nat.zero_le _

variable {g}

theorem capacity_edit (h : g.size ≤ g.capacity) :
    (g.edit e).capacity = growTo g.factor (g.size + e.items.length) g.capacity := by
  cases e with
  | add call => exact capacity_add g call
  | clear => exact (growTo_of_le h).symm

/-- **A call changes the capacity only if it must.** -/
theorem grows (h : g.size ≤ g.capacity) : g.Grows e := by
  have hcapacity := capacity_edit e h
  refine ⟨?_, fun hfits => ?_, fun _ => ?_⟩
  · rw [hcapacity]
    exact le_growTo_self
  · rw [hcapacity, growTo_of_le hfits]
  · rw [hcapacity]
    exact isFirstTerm_growTo _ _ _

end

/-! ### Many calls -/

section

variable {g : Growable α} {edits : List (Edit α)}

theorem editAll_concat (g : Growable α) (edits : List (Edit α)) (e : Edit α) :
    g.editAll (edits ++ [e]) = (g.editAll edits).edit e := by
  rw [editAll, List.foldl_concat]
  rfl

@[simp] theorem factor_editAll : (g.editAll edits).factor = g.factor := by
  induction edits using List.reverseRecOn with
  | nil => rfl
  | append_singleton edits e ih => rw [editAll_concat, factor_edit, ih]

theorem size_le_capacity_editAll (h : g.size ≤ g.capacity) :
    (g.editAll edits).size ≤ (g.editAll edits).capacity := by
  cases edits using List.reverseRecOn with
  | nil => exact h
  | append_singleton edits e =>
    rw [editAll_concat]
    exact size_le_capacity_edit _ e

theorem capacity_le_editAll (h : g.size ≤ g.capacity) :
    g.capacity ≤ (g.editAll edits).capacity := by
  induction edits using List.reverseRecOn with
  | nil => exact le_rfl
  | append_singleton edits e ih =>
    rw [editAll_concat]
    exact ih.trans (grows e (size_le_capacity_editAll h)).le

/-- Storage holds what was added since the last clearing. -/
theorem items_editAll (g : Growable α) (edits : List (Edit α)) : (g.editAll edits).items.toList
    = (if edits.any Edit.isClear then [] else g.items.toList) ++ Edit.kept edits := by
  -- by the last call: if it clears, the calls before it no longer matter
  induction edits using List.reverseRecOn with
  | nil => simp [editAll, Edit.kept]
  | append_singleton edits e ih =>
    rw [editAll_concat, items_edit, ih, Edit.kept_concat, List.any_append, List.any_cons,
      List.any_nil, Bool.or_false]
    cases e with
    | add call => simp [Edit.isClear]
    | clear => simp [Edit.isClear, Edit.items]

/-- Calls go through just when all storage on the way can be had, that at the start included. -/
theorem editAll?_eq_some_iff [FixedWidth α] :
    g.allocated?.bind (·.editAll? edits) = some (g.editAll edits) ↔
      ∀ front, front <+: edits → (g.editAll front).Fits := by
  -- by the first call: no call follows storage that cannot be had
  induction edits generalizing g with
  | nil => simp [editAll?, editAll, allocated?]
  | cons e edits ih =>
    have hnil : (g.editAll []).Fits ↔ g.Fits := Iff.rfl
    simp only [List.prefix_cons_iff, forall_eq_or_imp, forall_exists_index, and_imp]
    rw [hnil]
    by_cases hg : g.Fits
    · have hstep : g.allocated?.bind (·.editAll? (e :: edits))
          = (g.edit e).allocated?.bind (·.editAll? edits) := by
        rw [allocated?_of_fits hg, Option.bind_some, editAll?, List.foldlM_cons]
        rfl
      rw [hstep, and_iff_right hg]
      refine ih.trans ⟨?_, ?_⟩
      · rintro h _ front rfl hfront
        exact h front hfront
      · exact fun h front hfront => h _ front rfl hfront
    · simp [allocated?_of_not_fits hg, hg]

/-- Storage that can be had, and what is added to it, are small enough to be counted. -/
theorem size_add_length_le [FixedWidth α] (hwidth : 0 < FixedWidth.width α)
    (h : g.size ≤ g.capacity) (hfits : g.Fits) {e : Edit α}
    (he : FixedWidth.width α * e.items.length ≤ maxBytes) :
    g.capacity ≤ maxSize ∧ g.size + e.items.length ≤ maxSize := by
  have hcapacity : g.capacity ≤ maxBytes := (Nat.le_mul_of_pos_left _ hwidth).trans hfits
  have hlength : e.items.length ≤ maxBytes := (Nat.le_mul_of_pos_left _ hwidth).trans he
  have hmax : maxBytes + maxBytes ≤ maxSize := by decide
  omega

/-- Empty storage is storage for no elements. -/
theorem empty_eq_adopt (o : Options) : (empty o : Growable α) = adopt o #[] o.initial := rfl

/-- **Storage holds what was added since it was last cleared, and grows only if it must.**  This is
so for all options and for whatever the storage started with, empty or not; the search for a
capacity ends for every factor, and up to its end no number is too large to be counted. -/
theorem store_run [FixedWidth α] (o : Options) {items : Array α} {capacity : Nat}
    (hroom : items.size ≤ capacity) (edits : List (Edit α)) :
    let start := adopt o items capacity
    let g := start.editAll edits
    (g.items.toList = (if edits.any Edit.isClear then [] else items.toList) ++ Edit.kept edits ∧
      g.size ≤ g.capacity ∧ capacity ≤ g.capacity ∧ g.factor = o.resize) ∧
    (∀ e, g.Grows e) ∧
    (start.allocated?.bind (·.editAll? edits) = some g ↔
      ∀ front, front <+: edits → (start.editAll front).Fits) ∧
    (∀ e : Edit α, 0 < FixedWidth.width α → g.Fits →
      FixedWidth.width α * e.items.length ≤ maxBytes →
        g.capacity ≤ maxSize ∧ g.size + e.items.length ≤ maxSize) ∧
    ∀ factor c needed, IsFirstTerm (following factor) c needed (growTo factor needed c) ∧
      (c ≤ maxSize → needed ≤ maxSize → StaysInRange (following factor) c needed) := by
  intro start g
  have hstart : start.size ≤ start.capacity := hroom
  have hg : g.size ≤ g.capacity := size_le_capacity_editAll hstart
  exact ⟨⟨items_editAll start edits, hg, capacity_le_editAll hstart, factor_editAll⟩,
    fun e => grows e hg, editAll?_eq_some_iff,
    fun e hwidth hfits he => size_add_length_le hwidth hg hfits he,
    fun factor c needed => ⟨isFirstTerm_growTo factor needed c, staysInRange⟩⟩

/-- Nothing times an infinite factor is no number, so storage for nothing gets room for one element
and no more.  Empty storage with that factor holds what was added since it was cleared. -/
theorem store_run_fromNothing :
    (#[] : Array Int64).size ≤ 0 ∧
    let o := Options.withResize default (infinity false)
    ((adopt o #[] 0 : Growable Int64).edit (.add (.append 1))).capacity = 1 ∧
      ((empty o : Growable Int64).editAll
        [.add (.append 1), .clear, .add (.append 2)]).items.toList = [2] := by
  refine ⟨le_rfl, ?_⟩
  intro o
  let start : Growable Int64 := adopt o #[] 0
  refine ⟨?_, ?_⟩
  swap
  · rw [empty_eq_adopt]
    exact (store_run o (Nat.zero_le o.initial) _).1.1
  have hrun := store_run o (show (#[] : Array Int64).size ≤ 0 from le_rfl) []
  have hgrows : start.Grows (.add (.append 1)) := hrun.2.1 _
  obtain ⟨henough, i, htarget, hbelow⟩ := hgrows.first Nat.one_pos
  have hnext : following (infinity false) 0 = 1 := by
    rw [← nextCapacity_eq_following]
    decide +kernel
  have hfactor : start.factor = infinity false := hrun.1.2.2.2.trans (by decide)
  rw [hfactor] at htarget hbelow
  -- the old capacity is too small, and the term behind it is large enough
  rcases i with _ | _ | i
  · rw [htarget] at henough
    cases henough
  · rw [htarget]
    exact hnext
  · exact absurd (hbelow 1 (by omega)) (by rw [Function.iterate_one]; exact hnext.not_lt)

end

end Growable

end Columnar
