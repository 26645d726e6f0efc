import Mathlib.Algebra.Order.Floor.Semiring
import Mathlib.Data.Rat.Floor
import Columnar.Growable
import Columnar.Proofs.Multiples

/-!
# Growth and the size of memory

When elements do not fit, the capacity is multiplied by the growth factor until they do.  The
last step starts below what is needed, so what is asked for is less than the factor times the
number of elements:  fewer than `2 ^ 40` elements of sixteen bytes and a factor of `2 ^ 19` stay
below `2 ^ 63` bytes, as a block of memory does.  But every factor above one is kept, however
large, and one step with a larger one asks for storage that nothing can hold.

## Main definitions

* `Addition` — a call that adds elements.
* `Growable.run?` — what calls leave, unless some storage cannot be had.
* `Growable.requests` — the capacities that are asked for on the way.
* `IsUsableFactor` — no run asks for more than a block of memory.

## Main results

* `Growable.exists_eq_of_mem_requests` — all that is asked for is a step from below the number
  of elements.
* `isUsableFactor_iff` — a factor is usable just when all such steps fit.
* `isUsableFactor_bounds` — **factors up to `2 ^ 19` are usable, and those from `2 ^ 19 + 1` on
  are not.**
-/

namespace Columnar

open Binary64

/-! ### Factors above one -/

section

variable {x : Binary64} {c k needed : Nat}

theorem isNaN_of_one_lt (hx : one.lt x = true) : x.isNaN = false := by
  unfold lt at hx
  simp only [Bool.and_eq_true, Bool.not_eq_true'] at hx
  exact hx.1.2

theorem negative_of_one_lt (hx : one.lt x = true) : x.negative = false := by
  unfold lt at hx
  simp only [Bool.and_eq_true, decide_eq_true_eq] at hx
  have hone : one.orderKey = 0x3ff0000000000000 := by decide
  have hkey := hx.2
  rw [hone, orderKey] at hkey
  by_contra hsign
  rw [Bool.not_eq_false] at hsign
  rw [hsign, if_pos rfl] at hkey
  omega

/-! ### One step -/

theorem nextCapacity_le (hx : one.lt x = true) (hfinite : x.isInfinite = false)
    (hc : Representable c) (hk : Representable k) (hlt : c < k) (h : c * x.value ≤ k) :
    nextCapacity x c ≤ k :=
  max_le
    (ceilSaturating_mul_le hc hk (isNaN_of_one_lt hx) (negative_of_one_lt hx) hfinite h) hlt

theorem le_nextCapacity (hx : one.lt x = true) (hpos : 0 < c) (hc : Representable c)
    (hk : Representable k) (hmax : k ≤ maxSize) (h : k ≤ c * x.value) : k ≤ nextCapacity x c :=
  (le_ceilSaturating_mul hpos hc hk hmax (isNaN_of_one_lt hx) (negative_of_one_lt hx) h).trans
    (Nat.le_max_left _ _)

/-- A step loses no more than the fraction of the product. -/
theorem mul_lt_nextCapacity_add_one (hx : one.lt x = true) (hpos : 0 < c) (hc : Representable c)
    (h : c * x.value ≤ 2 ^ 52) : c * x.value < nextCapacity x c + 1 := by
  have hvalue : 0 ≤ x.value := by
    rw [value_of_not_negative (negative_of_one_lt hx)]
    exact div_nonneg (Nat.cast_nonneg _) (Nat.cast_nonneg _)
  have hfloor := Nat.floor_le (mul_nonneg c.cast_nonneg hvalue)
  have hsmall : ⌊c * x.value⌋₊ ≤ 2 ^ 52 := by exact_mod_cast hfloor.trans h
  have hle := le_nextCapacity hx hpos hc (representable_of_lt (hsmall.trans_lt (by decide)))
    (hsmall.trans (by decide)) hfloor
  calc c * x.value
      < ⌊c * x.value⌋₊ + 1 := Nat.lt_floor_add_one _
    _ ≤ nextCapacity x c + 1 := by exact_mod_cast Nat.succ_le_succ hle

/-! ### The sequence of capacities -/

theorem growTo_of_le (h : needed ≤ c) : growTo x needed c = c := by
  rw [growTo, if_neg (Nat.not_lt.mpr h)]

theorem growTo_of_lt (h : c < needed) :
    growTo x needed c = growTo x needed (nextCapacity x c) := by
  rw [growTo, if_pos h]

/-- One step is enough for one element. -/
theorem growTo_succ (x : Binary64) (c : Nat) : growTo x (c + 1) c = nextCapacity x c := by
  rw [growTo_of_lt (Nat.lt_succ_self c), growTo_of_le (lt_nextCapacity x c)]

theorem iterate_nextCapacity_mono (x : Binary64) (c : Nat) :
    Monotone fun i => (nextCapacity x)^[i] c := by
  refine monotone_nat_of_le_succ fun i => ?_
  rw [Function.iterate_succ_apply']
  exact (lt_nextCapacity x _).le

/-- Growing takes steps as long as there is too little room. -/
theorem exists_growTo_eq (h : c < needed) : ∃ i,
    growTo x needed c = (nextCapacity x)^[i + 1] c ∧ (nextCapacity x)^[i] c < needed := by
  fun_induction growTo x needed c with
  | case1 c hlt ih =>
    rcases Nat.lt_or_ge (nextCapacity x c) needed with hnext | hnext
    · obtain ⟨i, heq, hbelow⟩ := ih hnext
      rw [← Function.iterate_succ_apply] at heq hbelow
      exact ⟨i + 1, heq, hbelow⟩
    · refine ⟨0, ?_, by rwa [Function.iterate_zero_apply]⟩
      rw [growTo_of_le hnext, Function.iterate_succ_apply, Function.iterate_zero_apply]
  | case2 c hle => exact absurd h hle

end

/-! ### Calls and runs -/

/-- A call that adds elements. -/
inductive Addition (α : Type) where
  /-- One element. -/
  | append (x : α)
  /-- Several elements. -/
  | extend (xs : Array α)

/-- The elements that a call adds. -/
def Addition.items {α : Type} : Addition α → Array α
  | .append x => #[x]
  | .extend xs => xs

/-- The number of elements that calls add. -/
def Addition.total {α : Type} (calls : List (Addition α)) : Nat :=
  (calls.map fun call => call.items.size).sum

@[simp] theorem Addition.total_nil {α : Type} : Addition.total ([] : List (Addition α)) = 0 := rfl

theorem Addition.total_cons {α : Type} (call : Addition α) (calls : List (Addition α)) :
    Addition.total (call :: calls) = call.items.size + Addition.total calls := by
  rw [total, List.map_cons, List.sum_cons, total]

namespace Growable

variable {α : Type}

/-- The storage that a call asks for, with the elements in it. -/
def add (g : Growable α) : Addition α → Growable α
  | .append x => g.append x
  | .extend xs => g.extend xs

/-- The capacity that growing asks for before there are `needed` elements, unless they fit. -/
def request? (g : Growable α) (needed : Nat) : Option Nat :=
  if g.capacity < needed then some (growTo g.factor needed g.capacity) else none

section

variable [FixedWidth α]

/-- What calls leave, one after the other; nothing if some storage cannot be had. -/
def run? (g : Growable α) (calls : List (Addition α)) : Option (Growable α) :=
  calls.foldlM (fun g call => (g.add call).allocated?) g

/-- The capacities that growing asks for, until one cannot be had. -/
def requests (g : Growable α) : List (Addition α) → List Nat
  | [] => []
  | call :: calls =>
    (g.request? (g.size + call.items.size)).toList ++
      (g.add call).allocated?.elim [] fun g' => g'.requests calls

end

/-! ### One call -/

section

variable (g : Growable α) (call : Addition α)

theorem reserve_eq (n : Nat) :
    g.reserve n = { g with capacity := growTo g.factor n g.capacity } := by
  unfold reserve
  split_ifs with h
  · rfl
  · rw [growTo_of_le (Nat.not_lt.mp h)]

/-- A single element is added as several are. -/
theorem add_eq : g.add call = { g with
    items := g.items ++ call.items
    capacity := growTo g.factor (g.size + call.items.size) g.capacity } := by
  cases call with
  | append x =>
    simp only [add, append, reserve_eq, Addition.items, Array.push_eq_append]
    rfl
  | extend xs => simp only [add, extend, reserve_eq, Addition.items]

@[simp] theorem items_add : (g.add call).items = g.items ++ call.items := by rw [add_eq]

@[simp] theorem size_add : (g.add call).size = g.size + call.items.size := by
  rw [size, items_add, Array.size_append, size]

@[simp] theorem factor_add : (g.add call).factor = g.factor := by rw [add_eq]

@[simp] theorem capacity_add :
    (g.add call).capacity = growTo g.factor (g.size + call.items.size) g.capacity := by rw [add_eq]

end

section

variable [FixedWidth α] {g : Growable α} {call : Addition α} {calls : List (Addition α)}

@[simp] theorem run?_nil (g : Growable α) : g.run? [] = some g := rfl

theorem run?_cons (g : Growable α) (call : Addition α) (calls : List (Addition α)) :
    g.run? (call :: calls) = (g.add call).allocated?.bind (·.run? calls) := by
  rw [run?, List.foldlM_cons]
  rfl

theorem allocated?_of_fits (h : g.Fits) : g.allocated? = some g := if_pos h

theorem allocated?_of_not_fits (h : ¬ g.Fits) : g.allocated? = none := if_neg h

/-- **All that is asked for is a step from below the number of elements.** -/
theorem exists_eq_of_mem_requests {c : Nat} (hc : c ∈ g.requests calls) : ∃ i,
    c = (nextCapacity g.factor)^[i + 1] g.capacity ∧
      (nextCapacity g.factor)^[i] g.capacity < g.size + Addition.total calls := by
  induction calls generalizing g with
  | nil => cases hc
  | cons call calls ih =>
    rw [Addition.total_cons]
    rw [requests, List.mem_append, Option.mem_toList] at hc
    rcases hc with hfirst | hrest
    · unfold request? at hfirst
      split_ifs at hfirst with hlt
      obtain rfl := Option.some.inj hfirst
      obtain ⟨i, heq, hbelow⟩ := exists_growTo_eq hlt
      exact ⟨i, heq, by omega⟩
    · by_cases hcall : (g.add call).Fits
      · rw [allocated?_of_fits hcall, Option.elim_some] at hrest
        obtain ⟨i, heq, hbelow⟩ := ih hrest
        rw [factor_add, capacity_add] at heq hbelow
        rw [size_add, Nat.add_assoc] at hbelow
        rcases Nat.lt_or_ge g.capacity (g.size + call.items.size) with hlt | hle
        · -- the steps of the call, and then those after it
          obtain ⟨j, hgrown, -⟩ := exists_growTo_eq (x := g.factor) hlt
          rw [hgrown, ← Function.iterate_add_apply] at heq hbelow
          refine ⟨i + (j + 1), ?_, hbelow⟩
          rw [heq]
          exact congrFun (congrArg _ (by omega)) _
        · rw [growTo_of_le hle] at heq hbelow
          exact ⟨i, heq, hbelow⟩
      · rw [allocated?_of_not_fits hcall] at hrest
        cases hrest

end

/-! ### Filling storage up -/

section

variable [Inhabited α]

/-- A call after which there is one element more than fits. -/
def overfill (g : Growable α) : Addition α :=
  .extend (Array.replicate (g.capacity + 1 - g.size) default)

variable {g : Growable α} (h : g.size ≤ g.capacity)

include h

theorem size_add_overfill : g.size + g.overfill.items.size = g.capacity + 1 := by
  rw [overfill, Addition.items, Array.size_replicate]
  omega

theorem capacity_add_overfill :
    (g.add g.overfill).capacity = nextCapacity g.factor g.capacity := by
  rw [capacity_add, size_add_overfill h, growTo_succ]

omit h

/-- Calls after each of which there is one element more than fitted before. -/
def overfills (g : Growable α) : Nat → List (Addition α)
  | 0 => []
  | n + 1 => g.overfill :: (g.add g.overfill).overfills n

include h

theorem size_le_capacity_add_overfill :
    (g.add g.overfill).size ≤ (g.add g.overfill).capacity := by
  rw [size_add, size_add_overfill h, capacity_add_overfill h]
  exact lt_nextCapacity _ _

theorem total_overfills (i : Nat) : g.size + Addition.total (g.overfills (i + 1)) =
    (nextCapacity g.factor)^[i] g.capacity + 1 := by
  induction i generalizing g with
  | zero =>
    rw [Function.iterate_zero_apply, overfills, overfills, Addition.total_cons,
      Addition.total_nil, Nat.add_zero, size_add_overfill h]
  | succ i ih =>
    rw [overfills, Addition.total_cons, ← Nat.add_assoc, ← size_add,
      ih (size_le_capacity_add_overfill h), factor_add, capacity_add_overfill h,
      Function.iterate_succ_apply]

/-- Every term of the sequence is asked for, if there is storage of those before. -/
theorem mem_requests_overfills [FixedWidth α] {i : Nat}
    (hfits : ∀ j < i,
      FixedWidth.width α * (nextCapacity g.factor)^[j + 1] g.capacity ≤ maxBytes) :
    (nextCapacity g.factor)^[i + 1] g.capacity ∈ g.requests (g.overfills (i + 1)) := by
  induction i generalizing g with
  | zero =>
    rw [overfills, requests, size_add_overfill h, request?, if_pos (Nat.lt_succ_self _),
      growTo_succ, Function.iterate_succ_apply, Function.iterate_zero_apply]
    exact List.mem_cons_self
  | succ i ih =>
    have hcall : (g.add g.overfill).Fits := by
      have hfirst := hfits 0 i.succ_pos
      rwa [Function.iterate_succ_apply, Function.iterate_zero_apply,
        ← capacity_add_overfill h] at hfirst
    rw [overfills, requests, allocated?_of_fits hcall, Option.elim_some, List.mem_append]
    refine .inr ?_
    have hnext := ih (size_le_capacity_add_overfill h) (fun j hj => ?_)
    · rwa [factor_add, capacity_add_overfill h, ← Function.iterate_succ_apply] at hnext
    · rw [factor_add, capacity_add_overfill h, ← Function.iterate_succ_apply]
      exact hfits (j + 1) (Nat.succ_lt_succ hj)

end

end Growable

/-! ### Factors -/

/-- No run asks for more than a block of memory, if it starts with at most `2 ^ 32` elements of
at most sixteen bytes and adds less than `2 ^ 40`. -/
def IsUsableFactor (x : Binary64) : Prop :=
  ∀ (α : Type) [FixedWidth α], FixedWidth.width α ≤ 16 →
    ∀ (o : Options) (initial : Nat), initial ≤ 2 ^ 32 →
      ∀ calls : List (Addition α), Addition.total calls < 2 ^ 40 →
        ∀ c ∈ (Growable.empty ((o.withInitial initial).withResize x)).requests calls,
          FixedWidth.width α * c ≤ maxBytes

section

variable {x : Binary64}

theorem factor_empty {α : Type} (hx : one.lt x = true) (o : Options) :
    (Growable.empty (o.withResize x) : Growable α).factor = x := by
  rw [Growable.empty, Options.withResize, dif_pos hx]

theorem capacity_empty {α : Type} (o : Options) (initial : Nat) (x : Binary64) :
    (Growable.empty ((o.withInitial initial).withResize x) : Growable α).capacity
      = max initial 1 := by
  unfold Growable.empty Options.withResize
  split_ifs <;> rfl

/-- **A factor is usable just when every step fits that starts below `2 ^ 40 - 1`**, on the way
from some initial capacity. -/
theorem isUsableFactor_iff (hx : one.lt x = true) : IsUsableFactor x ↔
    ∀ k i, 0 < k → k ≤ 2 ^ 32 → (nextCapacity x)^[i] k < 2 ^ 40 - 1 →
      16 * (nextCapacity x)^[i + 1] k ≤ maxBytes := by
  constructor
  · intro husable k i hpos hk hbelow
    let g : Growable Complex := .empty ((Options.withInitial default k).withResize x)
    have hfactor : g.factor = x := factor_empty hx _
    have hcapacity : g.capacity = k := (capacity_empty _ k x).trans (Nat.max_eq_left hpos)
    have hsize : g.size ≤ g.capacity := Nat.zero_le _
    have htotal := Growable.total_overfills hsize i
    have hrequest := Growable.mem_requests_overfills hsize (i := i) fun j hj => by
      have hmono := iterate_nextCapacity_mono x k (show j + 1 ≤ i from hj)
      rw [hfactor, hcapacity]
      show 16 * _ ≤ 0x7fffffffffffffff
      dsimp only at hmono
      omega
    rw [hfactor, hcapacity] at htotal hrequest
    exact husable Complex (by decide) default k hk _ (by omega) _ hrequest
  · intro hsteps α _ hwidth o initial hinitial calls htotal c hc
    obtain ⟨i, rfl, hbelow⟩ := Growable.exists_eq_of_mem_requests hc
    rw [factor_empty hx, capacity_empty, Growable.size, Growable.empty, Array.size_empty,
      Nat.zero_add] at hbelow
    rw [factor_empty hx, capacity_empty]
    exact (Nat.mul_le_mul_right _ hwidth).trans
      (hsteps _ i (by omega) (by omega) (by omega))

/-- The largest real below `2 ^ 59`. -/
theorem representable_below : Representable (2 ^ 59 - 2 ^ 6) := by
  have h := representable_mul_powerOfTwo (n := 2 ^ 53 - 1) (s := 6) (by decide) (by decide)
  rwa [show (2 ^ 53 - 1) * powerOfTwo 6 = 2 ^ 59 - 2 ^ 6 from rfl] at h

theorem isInfinite_of_value_le (hx : one.lt x = true) (h : x.value ≤ 2 ^ 27) :
    x.isInfinite = false := by
  by_contra hinfinite
  rw [Bool.not_eq_false] at hinfinite
  have hpow : powerOfTwo 28 ≤ powerOfTwo 1024 := powerOfTwo_le_powerOfTwo (by decide)
  have hlarge : (powerOfTwo 28 : ℚ) ≤ 2 ^ 27 := by
    rw [value_of_isInfinite (negative_of_one_lt hx) hinfinite] at h
    exact le_trans (by exact_mod_cast hpow) h
  have hvalue : (powerOfTwo 28 : ℚ) = 2 ^ 28 := by norm_num [powerOfTwo]
  linarith

/-- One step from below `2 ^ 40 - 1` by a factor up to `2 ^ 19` stays below `2 ^ 59`. -/
theorem nextCapacity_le_of_le (hx : one.lt x = true) (h : x.value ≤ 2 ^ 19) {c : Nat}
    (hc : c < 2 ^ 40 - 1) : nextCapacity x c ≤ 2 ^ 59 - 2 ^ 6 := by
  have hfinite := isInfinite_of_value_le hx (h.trans (by norm_num))
  have hreal : Representable c := representable_of_lt (hc.trans (by decide))
  refine nextCapacity_le hx hfinite hreal representable_below (by omega) ?_
  have hc' : (c : ℚ) ≤ 2 ^ 40 - 2 := by
    have hle : c + 2 ≤ 2 ^ 40 := by omega
    have hle' : (c + 2 : ℚ) ≤ 2 ^ 40 := by exact_mod_cast hle
    linarith
  calc c * x.value
      ≤ (2 ^ 40 - 2) * 2 ^ 19 :=
        (mul_le_mul_of_nonneg_left h c.cast_nonneg).trans
          (mul_le_mul_of_nonneg_right hc' (by norm_num))
    _ ≤ (2 ^ 59 - 2 ^ 6 : Nat) := by norm_num

/-- Factors up to `2 ^ 19` are usable. -/
theorem isUsableFactor_of_le (hx : one.lt x = true) (h : x.value ≤ 2 ^ 19) :
    IsUsableFactor x := by
  refine (isUsableFactor_iff hx).mpr fun k i _ _ hbelow => ?_
  rw [Function.iterate_succ_apply']
  calc 16 * nextCapacity x ((nextCapacity x)^[i] k)
      ≤ 16 * (2 ^ 59 - 2 ^ 6) := Nat.mul_le_mul_left 16 (nextCapacity_le_of_le hx h hbelow)
    _ ≤ maxBytes := by decide

/-- A step to `2 ^ 59` or beyond does not fit. -/
theorem not_isUsableFactor_of_step (hx : one.lt x = true) {k i : Nat} (hpos : 0 < k)
    (hk : k ≤ 2 ^ 32) (hbelow : (nextCapacity x)^[i] k < 2 ^ 40 - 1)
    (h : 2 ^ 59 ≤ (nextCapacity x)^[i] k * x.value) : ¬ IsUsableFactor x := by
  intro husable
  have hfits := (isUsableFactor_iff hx).mp husable k i hpos hk hbelow
  rw [Function.iterate_succ_apply'] at hfits
  have hreal : Representable (2 ^ 59) := by
    have h := representable_mul_powerOfTwo (n := 1) (s := 59) (by decide) (by decide)
    rwa [Nat.one_mul] at h
  have hstart : 0 < (nextCapacity x)^[i] k :=
    hpos.trans_le (iterate_nextCapacity_mono x k i.zero_le)
  have hlarge : 2 ^ 59 ≤ nextCapacity x ((nextCapacity x)^[i] k) := by
    refine le_nextCapacity hx hstart (representable_of_lt (hbelow.trans (by decide))) hreal
      (by decide) ?_
    exact_mod_cast h
  unfold maxBytes at hfits
  omega

/-- A factor from `2 ^ 19 + 1` to `2 ^ 27` leads from some initial capacity to a capacity that is
small enough to be filled up and too large to be multiplied. -/
theorem exists_nextCapacity_large (hx : one.lt x = true) (hlow : 2 ^ 19 + 1 ≤ x.value)
    (hhigh : x.value ≤ 2 ^ 27) : ∃ k, 0 < k ∧ k ≤ 2 ^ 32 ∧
      nextCapacity x k < 2 ^ 40 - 1 ∧ 2 ^ 59 ≤ nextCapacity x k * x.value := by
  have hpos : 0 < x.value := by linarith
  -- the last initial capacity from which the first step ends below `2 ^ 40 - 1`
  let k := ⌊(2 ^ 40 - 3) / x.value⌋₊
  have hkle : k * x.value ≤ 2 ^ 40 - 3 := by
    rw [← le_div_iff₀ hpos]
    exact Nat.floor_le (div_nonneg (by norm_num) hpos.le)
  have hklt : 2 ^ 40 - 3 < (k + 1) * x.value := by
    rw [← div_lt_iff₀ hpos]
    exact Nat.lt_floor_add_one _
  have hk1 : 0 < k := by
    by_contra hk
    have hk0 : k = 0 := by omega
    rw [hk0] at hklt
    norm_num at hklt
    linarith
  have hk2 : k ≤ 2 ^ 32 := by
    have hk : (k : ℚ) ≤ 2 ^ 32 := by nlinarith
    exact_mod_cast hk
  have hreal : Representable k := representable_of_lt (hk2.trans_lt (by decide))
  have hfinite := isInfinite_of_value_le hx hhigh
  have hupper : nextCapacity x k ≤ 2 ^ 40 - 3 := by
    refine nextCapacity_le hx hfinite hreal (representable_of_lt (by decide)) (by omega) ?_
    refine hkle.trans (by norm_num)
  have hlower := mul_lt_nextCapacity_add_one hx hk1 hreal (hkle.trans (by norm_num))
  refine ⟨k, hk1, hk2, by omega, ?_⟩
  calc (2 ^ 59 : ℚ)
      ≤ (2 ^ 40 - 4 - x.value) * x.value := by
        nlinarith only [mul_nonneg (sub_nonneg.mpr hlow) (sub_nonneg.mpr hhigh), hlow]
    _ ≤ nextCapacity x k * x.value := mul_le_mul_of_nonneg_right (by linarith) hpos.le

/-- Factors from `2 ^ 19 + 1` on are not. -/
theorem not_isUsableFactor_of_ge (hx : one.lt x = true) (h : 2 ^ 19 + 1 ≤ x.value) :
    ¬ IsUsableFactor x := by
  rcases le_total x.value (2 ^ 27) with hle | hge
  · obtain ⟨k, hpos, hk, hbelow, hlarge⟩ := exists_nextCapacity_large hx h hle
    refine not_isUsableFactor_of_step hx (k := k) (i := 1) hpos hk ?_ ?_
    · rwa [Function.iterate_one]
    · rwa [Function.iterate_one]
  · refine not_isUsableFactor_of_step hx (k := 2 ^ 32) (i := 0) (by decide) le_rfl ?_ ?_
    · rw [Function.iterate_zero_apply]
      decide
    · rw [Function.iterate_zero_apply]
      push_cast
      linarith

/-- **Factors up to `2 ^ 19` are usable, and those from `2 ^ 19 + 1` on are not**, among all that
are kept. -/
theorem isUsableFactor_bounds (hx : one.lt x = true) :
    (x.value ≤ 2 ^ 19 → IsUsableFactor x) ∧ (2 ^ 19 + 1 ≤ x.value → ¬ IsUsableFactor x) :=
  ⟨isUsableFactor_of_le hx, not_isUsableFactor_of_ge hx⟩

theorem isUsableFactor_bounds_two_infinity :
    IsUsableFactor two ∧ ¬ IsUsableFactor (infinity false) := by
  constructor
  · refine (isUsableFactor_bounds (x := two) (by decide)).1 ?_
    have hunits : two.units ≤ 2 ^ 19 * unitsOfOne := by decide +kernel
    rw [value_of_not_negative (by decide), div_le_iff₀ Binary64.unitsOfOne_pos]
    exact_mod_cast hunits
  · refine (isUsableFactor_bounds (x := infinity false) (by decide)).2 ?_
    have hpow : powerOfTwo 20 ≤ powerOfTwo 1024 := powerOfTwo_le_powerOfTwo (by decide)
    rw [value_of_isInfinite (by decide) (by decide)]
    refine le_trans ?_ (Nat.cast_le.mpr hpow)
    norm_num [powerOfTwo]

/-- One step by an infinite factor is as large as a size can be. -/
theorem nextCapacity_infinity : nextCapacity (infinity false) 1 = maxSize := by
  rw [nextCapacity, ofNat_mul_infinite Nat.one_pos (representable_of_lt (by decide)) (by decide)
    (by decide) (by decide)]
  decide

/-- The second element asks for more than there is, though an infinite factor is kept. -/
theorem requests_infinite_factor :
    one.lt (infinity false) = true ∧
    let g : Growable Int64 := .empty ((Options.withInitial default 1).withResize (infinity false))
    g.requests [.append 1, .append 2] = [maxSize] ∧
      maxBytes < FixedWidth.width Int64 * maxSize ∧
      g.run? [.append 1, .append 2] = none := by
  refine ⟨by decide, ?_⟩
  intro g
  have hfactor : g.factor = infinity false := factor_empty (by decide) _
  have hcapacity : g.capacity = 1 := capacity_empty _ 1 _
  have hgrown : growTo (infinity false) 2 1 = maxSize :=
    (growTo_succ _ 1).trans nextCapacity_infinity
  -- the first element fits
  have hcapacity₁ : (g.add (.append 1)).capacity = 1 := by
    rw [Growable.capacity_add, hcapacity]
    exact growTo_of_le le_rfl
  have hfactor₁ : (g.add (.append 1)).factor = infinity false := by
    rw [Growable.factor_add, hfactor]
  have hsize₁ : (g.add (.append 1)).size + (Addition.append (2 : Int64)).items.size = 2 := rfl
  have hfirst : (g.add (.append 1)).allocated? = some (g.add (.append 1)) := by
    refine Growable.allocated?_of_fits ?_
    rw [Growable.Fits, hcapacity₁]
    decide
  -- the second does not
  have hsecond : ((g.add (.append 1)).add (.append 2)).allocated? = none := by
    refine Growable.allocated?_of_not_fits ?_
    rw [Growable.Fits, Growable.capacity_add, hsize₁, hfactor₁, hcapacity₁, hgrown]
    decide
  refine ⟨?_, by decide, ?_⟩
  · rw [Growable.requests, hfirst, Option.elim_some, Growable.requests, hsecond,
      Option.elim_none, Growable.request?, Growable.request?, hcapacity, hsize₁, hcapacity₁,
      hfactor₁, hgrown]
    rfl
  · rw [Growable.run?_cons, hfirst, Option.bind_some, Growable.run?_cons, hsecond,
      Option.bind_none]

end

end Columnar
