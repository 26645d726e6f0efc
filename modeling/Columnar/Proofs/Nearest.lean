import Mathlib.Algebra.Order.Field.Rat
import Mathlib.Algebra.Order.Field.Power
import Mathlib.Tactic.FieldSimp
import Mathlib.Tactic.Linarith
import Mathlib.Tactic.NormNum
import Mathlib.Tactic.Positivity
import Mathlib.Tactic.Ring
import Columnar.Decimal

/-!
# The nearest real

Rounding a quotient keeps at most fifty-three binary digits of it and goes to the nearer of its
two neighbours there.  The magnitudes from its binade on are multiples of its last place, and
all smaller ones are further away than the lowest of the binade; so no magnitude at all is
nearer.  A quotient that is too large becomes infinite: an infinity stands where the next power
of two would.

## Main definitions

* `Binary64.value` — the rational number that a word stands for.
* `Binary64.IsNearest` — no word stands for a nearer one.

## Main results

* `Binary64.magnitudeOfUnits_nearest` — **no magnitude is nearer to a quotient of units.**
* `Decimal.toBinary64_isNearest` — **a decimal becomes the nearest real.**
-/

namespace Columnar

/-! ### The nearest whole number -/

section

variable {a d k : Nat}

/-- How far a quotient lies above its whole part. -/
theorem abs_sub_floor (a : Nat) (hd : 0 < d) :
    |(a / d : ℚ) - (a / d : Nat)| = (a % d : Nat) / d := by
  have hd' : (0 : ℚ) < d := Nat.cast_pos.mpr hd
  have hdiv : (d * (a / d : Nat) + (a % d : Nat) : ℚ) = a := by
    exact_mod_cast Nat.div_add_mod a d
  have hrest : (a / d : ℚ) - (a / d : Nat) = (a % d : Nat) / d := by
    rw [← hdiv]
    field_simp
    ring
  rw [hrest, abs_of_nonneg (by positivity)]

/-- How far a quotient lies below the whole number behind its whole part. -/
theorem abs_sub_floor_succ (a : Nat) (hd : 0 < d) :
    |(a / d : ℚ) - (a / d + 1 : Nat)| = 1 - (a % d : Nat) / d := by
  have hd' : (0 : ℚ) < d := Nat.cast_pos.mpr hd
  have hmod : ((a % d : Nat) : ℚ) < d := by exact_mod_cast Nat.mod_lt a hd
  have hfloor : ((a / d : Nat) : ℚ) ≤ a / d := by
    rw [le_div_iff₀ hd']
    exact_mod_cast Nat.div_mul_le_self a d
  have habove := abs_sub_floor a hd
  rw [abs_of_nonneg (sub_nonneg.mpr hfloor)] at habove
  rw [Nat.cast_add_one, ← sub_sub, habove, abs_sub_comm, abs_of_nonneg]
  rw [sub_nonneg, div_le_one hd']
  exact hmod.le

/-- The rounded quotient is off by no more than a half. -/
theorem abs_sub_nearestEven_le (a : Nat) (hd : 0 < d) :
    |(a / d : ℚ) - nearestEven a d| ≤ 1 / 2 := by
  have hd' : (0 : ℚ) < d := Nat.cast_pos.mpr hd
  have hlow : 2 * (a % d) ≤ d → |(a / d : ℚ) - (a / d : Nat)| ≤ 1 / 2 := by
    intro h
    have h' : (2 * (a % d : Nat) : ℚ) ≤ d := by exact_mod_cast h
    rw [abs_sub_floor a hd, div_le_iff₀ hd']
    linarith
  have hhigh : d ≤ 2 * (a % d) → |(a / d : ℚ) - (a / d + 1 : Nat)| ≤ 1 / 2 := by
    intro h
    have h' : (d : ℚ) ≤ 2 * (a % d : Nat) := by exact_mod_cast h
    rw [abs_sub_floor_succ a hd, sub_le_comm, le_div_iff₀ hd']
    linarith
  unfold nearestEven
  dsimp only
  split_ifs with h₁ h₂ h₃
  · exact hlow h₁.le
  · exact hhigh h₂.le
  · exact hlow (by omega)
  · exact hhigh (by omega)

/-- A half goes to the even neighbour. -/
theorem even_nearestEven (hd : 0 < d) (h : |(a / d : ℚ) - nearestEven a d| = 1 / 2) :
    Even (nearestEven a d) := by
  have hd' : (0 : ℚ) < d := Nat.cast_pos.mpr hd
  have htie : ((a % d : Nat) : ℚ) / d = 1 / 2 → 2 * (a % d) = d := by
    intro heq
    rw [div_eq_iff hd'.ne'] at heq
    exact_mod_cast (by linarith : (2 * (a % d : Nat) : ℚ) = d)
  unfold nearestEven at h ⊢
  dsimp only at h ⊢
  split_ifs at h ⊢ with hlow hhigh heven
  · rw [abs_sub_floor a hd] at h
    have := htie h
    omega
  · rw [abs_sub_floor_succ a hd] at h
    have := htie (by linarith)
    omega
  · exact Nat.even_iff.mpr heven
  · exact Nat.even_iff.mpr (by omega)

/-- No whole number is nearer than the rounded quotient. -/
theorem nearestEven_nearest (a : Nat) (hd : 0 < d) (k : Nat) :
    |(a / d : ℚ) - nearestEven a d| ≤ |(a / d : ℚ) - k| := by
  have herror := abs_sub_nearestEven_le a hd
  by_cases hk : k = nearestEven a d
  · rw [hk]
  · have hone : (1 : ℚ) ≤ |(k : ℚ) - nearestEven a d| := by
      have hsub : (k : ℤ) - nearestEven a d ≠ 0 := by omega
      exact_mod_cast Int.one_le_abs hsub
    have htriangle := abs_sub_le (k : ℚ) (a / d) (nearestEven a d)
    rw [abs_sub_comm (k : ℚ) (a / d)] at htriangle
    linarith

/-- No multiple is nearer than that of the rounded quotient. -/
theorem nearestEven_mul_nearest (a : Nat) (hd : 0 < d) {s : Nat} (hs : 0 < s) (k : Nat) :
    |(a / d : ℚ) - (nearestEven a (d * s) * s : Nat)| ≤ |(a / d : ℚ) - (k * s : Nat)| := by
  have hs' : (0 : ℚ) < s := Nat.cast_pos.mpr hs
  have hscale : ∀ j : Nat,
      |(a / d : ℚ) - (j * s : Nat)| = |(a / (d * s : Nat) : ℚ) - j| * s := by
    intro j
    have hmul : (a / d : ℚ) - (j * s : Nat) = (a / (d * s : Nat) - j) * s := by
      rw [Nat.cast_mul, Nat.cast_mul, ← div_div, sub_mul, div_mul_cancel₀ _ hs'.ne']
    rw [hmul, abs_mul, abs_of_pos hs']
  rw [hscale, hscale]
  exact mul_le_mul_of_nonneg_right (nearestEven_nearest a (Nat.mul_pos hd hs) k) hs'.le

theorem nearestEven_le (hd : 0 < d) (h : a ≤ d * k) : nearestEven a d ≤ k := by
  have hfloor : a / d ≤ k := Nat.div_le_of_le_mul h
  have hdiv := Nat.div_add_mod a d
  unfold nearestEven
  dsimp only
  by_cases heq : a / d = k
  · rw [heq] at hdiv
    rw [if_pos (by omega)]
    exact hfloor
  · split_ifs <;> omega

theorem le_nearestEven (hd : 0 < d) (h : d * k ≤ a) : k ≤ nearestEven a d := by
  have hfloor : k ≤ a / d := (Nat.le_div_iff_mul_le hd).mpr (by rwa [Nat.mul_comm])
  unfold nearestEven
  dsimp only
  split_ifs <;> omega

end

/-! ### The last place -/

theorem powerOfTwo_add (m n : Nat) : powerOfTwo (m + n) = powerOfTwo m * powerOfTwo n :=
  Nat.pow_add 2 m n

theorem powerOfTwo_mul (m n : Nat) : powerOfTwo (m * n) = powerOfTwo m ^ n := Nat.pow_mul 2 m n

theorem powerOfTwo_le_powerOfTwo {m n : Nat} (h : m ≤ n) : powerOfTwo m ≤ powerOfTwo n :=
  Nat.pow_le_pow_right (by decide) h

namespace Binary64

variable {a d : Nat}

/-- A quotient lies in the binade of its last place, or below if that is the last one of all. -/
theorem lastPlace_spec (a : Nat) (hd : 0 < d) : a < d * powerOfTwo (lastPlace a d + 53) ∧
    (0 < lastPlace a d → d * powerOfTwo (lastPlace a d + 52) ≤ a) := by
  have hdlow : powerOfTwo d.log2 ≤ d := Nat.log2_self_le (by omega)
  have hdhigh : d < powerOfTwo (d.log2 + 1) := Nat.lt_log2_self
  have hahigh : a < powerOfTwo (a.log2 + 1) := Nat.lt_log2_self
  unfold lastPlace
  dsimp only
  generalize hp : a.log2 - (d.log2 + 52) = p
  split_ifs with h
  · obtain ⟨q, rfl⟩ := Nat.exists_eq_succ_of_ne_zero (by omega : p ≠ 0)
    refine ⟨h.2, fun _ => ?_⟩
    have halow : powerOfTwo a.log2 ≤ a := by
      refine Nat.log2_self_le ?_
      rintro rfl
      simp at hp
    calc d * powerOfTwo (q + 52)
        ≤ powerOfTwo (d.log2 + 1) * powerOfTwo (q + 52) := Nat.mul_le_mul_right _ hdhigh.le
      _ = powerOfTwo a.log2 := by
        rw [← powerOfTwo_add]
        exact congrArg _ (by omega)
      _ ≤ a := halow
  · refine ⟨?_, fun hpos => Nat.not_lt.mp fun hlt => h ⟨hpos, hlt⟩⟩
    calc a < powerOfTwo (a.log2 + 1) := hahigh
      _ ≤ powerOfTwo (d.log2 + (p + 53)) := powerOfTwo_le_powerOfTwo (by omega)
      _ = powerOfTwo d.log2 * powerOfTwo (p + 53) := powerOfTwo_add _ _
      _ ≤ d * powerOfTwo (p + 53) := Nat.mul_le_mul_right _ hdlow

/-! ### Magnitudes in units -/

theorem exponentBit_pos : 0 < exponentBit := by decide

theorem powerOfTwo_fifty_two : powerOfTwo 52 = exponentBit := rfl

theorem powerOfTwo_fifty_three : powerOfTwo 53 = 2 * exponentBit := rfl

theorem unitsOfMagnitude_normal {e f : Nat} (hf : f < exponentBit) :
    unitsOfMagnitude ((e + 1) * exponentBit + f) = (exponentBit + f) * powerOfTwo e := by
  have hdiv : ((e + 1) * exponentBit + f) / exponentBit = e + 1 := by
    rw [Nat.mul_comm, Nat.mul_add_div exponentBit_pos, Nat.div_eq_of_lt hf, Nat.add_zero]
  have hmod : ((e + 1) * exponentBit + f) % exponentBit = f := by
    rw [Nat.mul_comm, Nat.mul_add_mod, Nat.mod_eq_of_lt hf]
  have hle : ¬ (e + 1) * exponentBit + f < exponentBit := by
    rw [Nat.succ_mul]
    omega
  rw [unitsOfMagnitude, if_neg hle, hdiv, hmod, Nat.add_sub_cancel]

/-- The units of a last place and what stands above it. -/
theorem unitsOfMagnitude_eq {p r : Nat} (hlow : 0 < p → exponentBit ≤ r)
    (hhigh : r ≤ 2 * exponentBit) : unitsOfMagnitude (p * exponentBit + r) = r * powerOfTwo p := by
  by_cases hr : r < exponentBit
  · obtain rfl : p = 0 := by
      by_contra hp
      exact absurd (hlow (Nat.pos_of_ne_zero hp)) (Nat.not_le.mpr hr)
    rw [Nat.zero_mul, Nat.zero_add, powerOfTwo_zero, Nat.mul_one]
    exact if_pos hr
  · obtain ⟨f, rfl⟩ := Nat.exists_eq_add_of_le (Nat.not_lt.mp hr)
    rcases Nat.lt_or_eq_of_le (show f ≤ exponentBit by omega) with hf | rfl
    · rw [← Nat.add_assoc, ← Nat.succ_mul]
      exact unitsOfMagnitude_normal hf
    · have hcarry : p * exponentBit + (exponentBit + exponentBit)
          = (p + 1 + 1) * exponentBit + 0 := by
        ring
      rw [hcarry, unitsOfMagnitude_normal exponentBit_pos, powerOfTwo_succ]
      ring

theorem exists_of_exponentBit_le {m : Nat} (h : exponentBit ≤ m) :
    ∃ e f, f < exponentBit ∧ m = (e + 1) * exponentBit + f := by
  have hpos : 0 < m / exponentBit := Nat.div_pos h exponentBit_pos
  refine ⟨m / exponentBit - 1, m % exponentBit, Nat.mod_lt m exponentBit_pos, ?_⟩
  rw [Nat.sub_add_cancel hpos, Nat.mul_comm]
  exact (Nat.div_add_mod m exponentBit).symm

theorem unitsOfMagnitude_strictMono : StrictMono unitsOfMagnitude := by
  refine strictMono_nat_of_lt_succ fun m => ?_
  rcases Nat.lt_or_ge m exponentBit with hm | hm
  · have hnext := @unitsOfMagnitude_eq 0 (m + 1) (fun h => absurd h (Nat.lt_irrefl 0)) (by omega)
    rw [Nat.zero_mul, Nat.zero_add, powerOfTwo_zero, Nat.mul_one] at hnext
    rw [hnext, unitsOfMagnitude, if_pos hm]
    exact Nat.lt_succ_self m
  · obtain ⟨e, f, hf, rfl⟩ := exists_of_exponentBit_le hm
    have hnext := @unitsOfMagnitude_eq e (exponentBit + f + 1) (fun _ => by omega) (by omega)
    rw [← Nat.add_assoc, ← Nat.add_assoc, ← Nat.succ_mul] at hnext
    rw [hnext, unitsOfMagnitude_normal hf]
    exact Nat.mul_lt_mul_of_pos_right (Nat.lt_succ_self _) (powerOfTwo_pos e)

/-- Units from a binade on are multiples of its last place. -/
theorem dvd_unitsOfMagnitude {m p : Nat} (h : exponentBit * powerOfTwo p ≤ unitsOfMagnitude m) :
    powerOfTwo p ∣ unitsOfMagnitude m := by
  have hpow := powerOfTwo_pos p
  rcases Nat.lt_or_ge m exponentBit with hm | hm
  · rw [unitsOfMagnitude, if_pos hm] at h
    exact absurd (Nat.le_mul_of_pos_right exponentBit hpow) (by omega)
  · obtain ⟨e, f, hf, rfl⟩ := exists_of_exponentBit_le hm
    rw [unitsOfMagnitude_normal hf] at h ⊢
    have hlt : exponentBit * powerOfTwo p < exponentBit * powerOfTwo (e + 1) := by
      calc exponentBit * powerOfTwo p
          ≤ (exponentBit + f) * powerOfTwo e := h
        _ < (exponentBit + exponentBit) * powerOfTwo e :=
          Nat.mul_lt_mul_of_pos_right (Nat.add_lt_add_left hf _) (powerOfTwo_pos e)
        _ = exponentBit * powerOfTwo (e + 1) := by
          rw [powerOfTwo_succ]
          ring
    have hle : p ≤ e := by
      by_contra hle
      have hpow' := powerOfTwo_le_powerOfTwo (show e + 1 ≤ p by omega)
      exact absurd (Nat.mul_le_mul_left exponentBit hpow') (Nat.not_le.mpr hlt)
    exact (Nat.pow_dvd_pow 2 hle).trans (Nat.dvd_mul_left _ _)

/-! ### Rounding -/

/-- The magnitude that a quotient of units is rounded to, if no magnitude is too large. -/
def roundedMagnitude (a d : Nat) : Nat :=
  lastPlace a d * exponentBit + nearestEven a (d * powerOfTwo (lastPlace a d))

theorem magnitudeOfUnits_eq (a d : Nat) :
    magnitudeOfUnits a d = min (roundedMagnitude a d) infinityMagnitude := rfl

/-- No magnitude is nearer, where none is too large. -/
theorem roundedMagnitude_nearest (a : Nat) (hd : 0 < d) (m : Nat) :
    |(a / d : ℚ) - unitsOfMagnitude (roundedMagnitude a d)|
      ≤ |(a / d : ℚ) - unitsOfMagnitude m| := by
  obtain ⟨hupper, hlower⟩ := lastPlace_spec a hd
  unfold roundedMagnitude
  generalize lastPlace a d = p at *
  have hpow : 0 < d * powerOfTwo p := Nat.mul_pos hd (powerOfTwo_pos p)
  have hbinade : d * powerOfTwo (p + 52) = d * powerOfTwo p * exponentBit := by
    rw [powerOfTwo_add, powerOfTwo_fifty_two, Nat.mul_assoc]
  have hnext : d * powerOfTwo (p + 53) = d * powerOfTwo p * (2 * exponentBit) := by
    rw [powerOfTwo_add, powerOfTwo_fifty_three, Nat.mul_assoc]
  rw [hbinade] at hlower
  rw [hnext] at hupper
  rw [unitsOfMagnitude_eq (fun hp => le_nearestEven hpow (hlower hp))
    (nearestEven_le hpow hupper.le)]
  have hmultiple := nearestEven_mul_nearest a hd (powerOfTwo_pos p)
  rcases Nat.lt_or_ge (unitsOfMagnitude m) (exponentBit * powerOfTwo p) with hm | hm
  · rcases Nat.eq_zero_or_pos p with rfl | hp
    · simpa using hmultiple (unitsOfMagnitude m)
    · -- below the binade, further away than its lowest number
      have hle : ((exponentBit * powerOfTwo p : Nat) : ℚ) ≤ a / d := by
        rw [le_div_iff₀ (Nat.cast_pos.mpr hd)]
        have := hlower hp
        exact_mod_cast (by nlinarith : exponentBit * powerOfTwo p * d ≤ a)
      have hm' : (unitsOfMagnitude m : ℚ) ≤ (exponentBit * powerOfTwo p : Nat) := by
        exact_mod_cast hm.le
      refine (hmultiple exponentBit).trans ?_
      rw [abs_of_nonneg (sub_nonneg.mpr hle), abs_of_nonneg (by linarith)]
      linarith
  · obtain ⟨k, hk⟩ := dvd_unitsOfMagnitude hm
    rw [hk, Nat.mul_comm (powerOfTwo p) k]
    exact hmultiple k

/-- **No magnitude is nearer to a quotient of units**, where an infinite one counts for the next
power of two. -/
theorem magnitudeOfUnits_nearest (a : Nat) (hd : 0 < d) {m : Nat} (hm : m ≤ infinityMagnitude) :
    |(a / d : ℚ) - unitsOfMagnitude (magnitudeOfUnits a d)|
      ≤ |(a / d : ℚ) - unitsOfMagnitude m| := by
  have hnearest := roundedMagnitude_nearest a hd
  rw [magnitudeOfUnits_eq]
  rcases Nat.le_total (roundedMagnitude a d) infinityMagnitude with hle | hle
  · rw [Nat.min_eq_left hle]
    exact hnearest m
  · rw [Nat.min_eq_right hle]
    have hrounded : (unitsOfMagnitude infinityMagnitude : ℚ)
        ≤ unitsOfMagnitude (roundedMagnitude a d) := by
      exact_mod_cast unitsOfMagnitude_strictMono.monotone hle
    have hm' : (unitsOfMagnitude m : ℚ) ≤ unitsOfMagnitude infinityMagnitude := by
      exact_mod_cast unitsOfMagnitude_strictMono.monotone hm
    rcases le_total (unitsOfMagnitude infinityMagnitude : ℚ) (a / d) with hq | hq
    · rw [abs_of_nonneg (sub_nonneg.mpr hq), abs_of_nonneg (by linarith)]
      linarith
    · refine le_trans ?_ (hnearest m)
      rw [abs_of_nonpos (by linarith), abs_of_nonpos (by linarith)]
      linarith

/-! ### Words -/

/-- One, with the given sign. -/
def signOf (negative : Bool) : ℚ := if negative then -1 else 1

/-- The rational number that a word stands for; an infinity stands where the next power of two
would. -/
def value (x : Binary64) : ℚ := signOf x.negative * (x.units / unitsOfOne)

/-- The word stands for a number, and no word stands for a nearer one. -/
structure IsNearest (x : Binary64) (v : ℚ) : Prop where
  /-- It stands for a number. -/
  isNaN : x.isNaN = false
  /-- No number is nearer. -/
  le : ∀ y : Binary64, y.isNaN = false → |v - x.value| ≤ |v - y.value|

section

variable {m : Nat} {negative : Bool}

theorem abs_signOf (negative : Bool) : |signOf negative| = 1 := by
  cases negative <;> simp [signOf]

theorem abs_value (x : Binary64) : |x.value| = x.units / unitsOfOne := by
  rw [value, abs_mul, abs_signOf, one_mul, abs_of_nonneg (by positivity)]

theorem toNat_ofMagnitude (hm : m ≤ infinityMagnitude) :
    (ofMagnitude negative m).bits.toNat = m + if negative then signBit else 0 := by
  have hlt : (m + if negative then signBit else 0) < 2 ^ 64 := by
    unfold infinityMagnitude at hm
    unfold signBit
    split_ifs <;> omega
  exact Nat.mod_eq_of_lt hlt

theorem magnitude_ofMagnitude (hm : m ≤ infinityMagnitude) :
    (ofMagnitude negative m).magnitude = m := by
  rw [magnitude, toNat_ofMagnitude hm]
  unfold infinityMagnitude at hm
  unfold signBit
  split_ifs <;> omega

theorem negative_ofMagnitude (hm : m ≤ infinityMagnitude) :
    (ofMagnitude negative m).negative = negative := by
  rw [Binary64.negative, toNat_ofMagnitude hm]
  unfold infinityMagnitude at hm
  cases negative <;> simp [signBit]
  omega

theorem isNaN_ofMagnitude (hm : m ≤ infinityMagnitude) :
    (ofMagnitude negative m).isNaN = false := by
  rw [isNaN, magnitude_ofMagnitude hm]
  exact decide_eq_false (Nat.not_lt.mpr hm)

theorem units_ofMagnitude (hm : m ≤ infinityMagnitude) :
    (ofMagnitude negative m).units = unitsOfMagnitude m := by
  rw [units, magnitude_ofMagnitude hm]

theorem value_ofMagnitude (hm : m ≤ infinityMagnitude) :
    (ofMagnitude negative m).value
      = signOf negative * (unitsOfMagnitude m / unitsOfOne) := by
  rw [value, negative_ofMagnitude hm, units_ofMagnitude hm]

/-- Signs make no number nearer. -/
theorem isNearest_ofMagnitude {v : ℚ} (hm : m ≤ infinityMagnitude) (hv : 0 ≤ v)
    (h : ∀ k ≤ infinityMagnitude,
      |v - unitsOfMagnitude m / unitsOfOne| ≤ |v - unitsOfMagnitude k / unitsOfOne|) :
    (ofMagnitude negative m).IsNearest (signOf negative * v) := by
  constructor
  · exact isNaN_ofMagnitude hm
  · intro y hy
    have hk : y.magnitude ≤ infinityMagnitude := by
      simpa [isNaN] using hy
    rw [value_ofMagnitude hm, ← mul_sub, abs_mul, abs_signOf, one_mul]
    refine (h _ hk).trans ?_
    have hdist := abs_abs_sub_abs_le (signOf negative * v) y.value
    rwa [abs_mul, abs_signOf, one_mul, abs_of_nonneg hv, abs_value] at hdist

end

theorem unitsOfOne_pos : (0 : ℚ) < unitsOfOne := Nat.cast_pos.mpr (powerOfTwo_pos 1074)

/-- A quotient becomes the nearest real. -/
theorem ofRatio_isNearest (negative : Bool) (num : Nat) {den : Nat} (hden : 0 < den) :
    (ofRatio negative num den).IsNearest (signOf negative * (num / den)) := by
  refine isNearest_ofMagnitude (Nat.min_le_right _ _) (by positivity) fun k hk => ?_
  have hone := unitsOfOne_pos
  have hscale : ∀ u : ℚ, |(num / den : ℚ) - u / unitsOfOne|
      = |((num * unitsOfOne : Nat) / den : ℚ) - u| / unitsOfOne := by
    intro u
    rw [← abs_of_pos hone, ← abs_div, abs_of_pos hone, sub_div, Nat.cast_mul, div_right_comm,
      mul_div_cancel_right₀ _ hone.ne']
  rw [hscale, hscale]
  exact div_le_div_of_nonneg_right (magnitudeOfUnits_nearest _ hden hk) hone.le

/-- What is less than half of the least magnitude becomes zero. -/
theorem isNearest_zero {v : ℚ} (negative : Bool) (hv : 0 ≤ v) (h : 2 * v ≤ 1 / unitsOfOne) :
    (ofMagnitude negative 0).IsNearest (signOf negative * v) := by
  refine isNearest_ofMagnitude (Nat.zero_le _) hv fun k _ => ?_
  have hone := unitsOfOne_pos
  have hzero : unitsOfMagnitude 0 = 0 := rfl
  rw [hzero, Nat.cast_zero, zero_div, sub_zero, abs_of_nonneg hv]
  rcases Nat.eq_zero_or_pos (unitsOfMagnitude k) with hk | hk
  · rw [hk, Nat.cast_zero, zero_div, sub_zero]
    exact le_abs_self v
  · have hle : 1 / (unitsOfOne : ℚ) ≤ unitsOfMagnitude k / unitsOfOne :=
      div_le_div_of_nonneg_right (by exact_mod_cast hk) hone.le
    rw [abs_sub_comm]
    refine le_trans ?_ (le_abs_self _)
    linarith

/-- What is as large as the power of two next to the reals becomes infinite. -/
theorem isNearest_infinity {v : ℚ} (negative : Bool)
    (h : (unitsOfMagnitude infinityMagnitude : ℚ) / unitsOfOne ≤ v) :
    (infinity negative).IsNearest (signOf negative * v) := by
  have hone := unitsOfOne_pos
  have hv : 0 ≤ v := le_trans (div_nonneg (Nat.cast_nonneg _) hone.le) h
  refine isNearest_ofMagnitude (Nat.le_refl _) hv fun k hk => ?_
  have hle : (unitsOfMagnitude k / unitsOfOne : ℚ)
      ≤ unitsOfMagnitude infinityMagnitude / unitsOfOne := by
    refine div_le_div_of_nonneg_right ?_ hone.le
    exact_mod_cast unitsOfMagnitude_strictMono.monotone hk
  rw [abs_of_nonneg (sub_nonneg.mpr h), abs_of_nonneg (by linarith)]
  linarith

/-- An infinity stands where the power of two next to the reals would. -/
theorem units_infinity : unitsOfMagnitude infinityMagnitude = powerOfTwo 1024 * unitsOfOne := by
  have hinfinity : infinityMagnitude = (2046 + 1) * exponentBit + 0 := by decide
  have hpow : powerOfTwo 52 * powerOfTwo 2046 = powerOfTwo 1024 * powerOfTwo 1074 :=
    (powerOfTwo_add 52 2046).symm.trans (powerOfTwo_add 1024 1074)
  rw [hinfinity, unitsOfMagnitude_normal exponentBit_pos, Nat.add_zero, ← powerOfTwo_fifty_two]
  unfold unitsOfOne
  exact hpow

end Binary64

/-! ### Decimals -/

theorem cast_powerOfTen (n : Nat) : (powerOfTen n : ℚ) = 10 ^ n := Nat.cast_pow 10 n

theorem powerOfTen_mul (m n : Nat) : powerOfTen (m * n) = powerOfTen m ^ n := Nat.pow_mul 10 m n

theorem powerOfTen_le_powerOfTen {m n : Nat} (h : m ≤ n) : powerOfTen m ≤ powerOfTen n :=
  Nat.pow_le_pow_right (by decide) h

/-- Ten is a little more than three binary digits: here for 1024 of them. -/
theorem powerOfTwo_le_powerOfTen : powerOfTwo 1024 ≤ powerOfTen 311 := by
  calc powerOfTwo 1024
      ≤ powerOfTwo (205 * 5) := powerOfTwo_le_powerOfTwo (by decide)
    _ = powerOfTwo 205 ^ 5 := powerOfTwo_mul 205 5
    _ ≤ powerOfTen 62 ^ 5 := Nat.pow_le_pow_left (by decide) 5
    _ = powerOfTen (62 * 5) := (powerOfTen_mul 62 5).symm
    _ ≤ powerOfTen 311 := powerOfTen_le_powerOfTen (by decide)

namespace Decimal

open Binary64

/-- The value of a decimal. -/
def value (d : Decimal) : ℚ := d.digits * 10 ^ d.exponent

theorem value_nonneg (d : Decimal) : 0 ≤ d.value := by
  unfold value
  positivity

/-- Behind more than 310 zeros no real is left. -/
theorem le_value_of_large {digits : Nat} {exponent : Int} (hzero : digits ≠ 0)
    (hlarge : 310 < exponent) : (unitsOfMagnitude infinityMagnitude : ℚ) / unitsOfOne
      ≤ value ⟨digits, exponent⟩ := by
  obtain ⟨n, rfl⟩ := Int.eq_ofNat_of_zero_le (by omega : 0 ≤ exponent)
  have hone : (1 : ℚ) ≤ digits := by exact_mod_cast Nat.pos_of_ne_zero hzero
  have hpow : (powerOfTwo 1024 : ℚ) ≤ 10 ^ n := by
    rw [← cast_powerOfTen]
    exact_mod_cast powerOfTwo_le_powerOfTen.trans (powerOfTen_le_powerOfTen (by omega))
  rw [units_infinity, Nat.cast_mul, mul_div_cancel_right₀ _ unitsOfOne_pos.ne', value,
    zpow_natCast]
  exact hpow.trans (le_mul_of_one_le_left (by positivity) hone)

/-- Half of the least real is more than what stands so far behind the point. -/
theorem value_le_of_small {digits : Nat} {exponent : Int}
    (hsmall : (digits.log2 + 1 : Int) + 3 * exponent < -1075) :
    2 * value ⟨digits, exponent⟩ ≤ 1 / unitsOfOne := by
  obtain ⟨n, rfl⟩ := Int.exists_eq_neg_ofNat (by omega : exponent ≤ 0)
  have hhalf : unitsOfOne * 2 = powerOfTwo (1074 + 1) := by
    unfold unitsOfOne
    exact (powerOfTwo_succ 1074).symm
  -- a power of ten is more than that of eight
  have hpow : digits * (unitsOfOne * 2) ≤ powerOfTen n := by
    calc digits * (unitsOfOne * 2)
        ≤ powerOfTwo (digits.log2 + 1) * powerOfTwo (1074 + 1) :=
          Nat.mul_le_mul Nat.lt_log2_self.le hhalf.le
      _ = powerOfTwo (digits.log2 + 1 + (1074 + 1)) := (powerOfTwo_add _ _).symm
      _ ≤ powerOfTwo (3 * n) := powerOfTwo_le_powerOfTwo (by omega)
      _ = 8 ^ n := powerOfTwo_mul 3 n
      _ ≤ powerOfTen n := Nat.pow_le_pow_left (by decide) n
  have hpow' : (digits * (unitsOfOne * 2) : ℚ) ≤ 10 ^ n := by
    rw [← cast_powerOfTen]
    exact_mod_cast hpow
  have hten : (0 : ℚ) < 10 ^ n := by positivity
  rw [value, zpow_neg, zpow_natCast, le_div_iff₀ unitsOfOne_pos, ← div_eq_mul_inv, mul_div_assoc',
    div_mul_eq_mul_div, div_le_one hten]
  linarith

/-- **A decimal becomes the nearest real.** -/
theorem toBinary64_isNearest (negative : Bool) (d : Decimal) :
    (d.toBinary64 negative).IsNearest (signOf negative * d.value) := by
  have hvalue := d.value_nonneg
  obtain ⟨digits, exponent⟩ := d
  unfold toBinary64
  dsimp only
  split_ifs with hzero hlarge hsmall
  · refine isNearest_zero negative hvalue ?_
    rw [value, hzero, Nat.cast_zero, zero_mul, mul_zero]
    exact div_nonneg zero_le_one unitsOfOne_pos.le
  · exact isNearest_infinity negative (le_value_of_large hzero hlarge)
  · exact isNearest_zero negative hvalue (value_le_of_small hsmall)
  · cases exponent with
    | ofNat e =>
      have hratio := ofRatio_isNearest negative (digits * powerOfTen e) Nat.one_pos
      rw [Nat.cast_mul, cast_powerOfTen, Nat.cast_one, div_one] at hratio
      exact hratio
    | negSucc e =>
      have hpos : 0 < powerOfTen (e + 1) := Nat.pow_pos (by decide)
      have hratio := ofRatio_isNearest negative digits hpos
      rw [cast_powerOfTen, div_eq_mul_inv] at hratio
      exact hratio

end Decimal

end Columnar
