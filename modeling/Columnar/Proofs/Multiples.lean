import Columnar.Proofs.Rounding

/-!
# Whole multiples of a real

A whole number of at most fifty-three binary digits, and zeros behind them, is a real.  Rounding
moves nothing past a real, so the product of a whole number and a real, rounded, stays on its side
of every such number; and so does the next whole number above it.

## Main definitions

* `Binary64.Representable` — a whole number that is a real.

## Main results

* `Binary64.representable_mul_powerOfTwo` — fifty-three digits, and zeros behind them.
* `Binary64.ceilSaturating_mul_le`, `Binary64.le_ceilSaturating_mul` — **a multiple, rounded and
  brought up to a whole number, stays on its side of a whole number that is a real.**
-/

namespace Columnar

namespace Binary64

/-! ### Rounding moves nothing past a real -/

section

variable {a d m : Nat}

theorem unitsOfMagnitude_magnitudeOfUnits_le (hd : 0 < d) (hm : m ≤ infinityMagnitude)
    (h : a ≤ unitsOfMagnitude m * d) :
    unitsOfMagnitude (magnitudeOfUnits a d) ≤ unitsOfMagnitude m := by
  have hnearest := magnitudeOfUnits_nearest a hd hm
  have hquotient : (a / d : ℚ) ≤ unitsOfMagnitude m := by
    rw [div_le_iff₀ (Nat.cast_pos.mpr hd)]
    exact_mod_cast h
  rw [abs_of_nonpos (sub_nonpos.mpr hquotient)] at hnearest
  have hle := (neg_le_abs _).trans hnearest
  exact_mod_cast (by linarith : (unitsOfMagnitude (magnitudeOfUnits a d) : ℚ)
    ≤ unitsOfMagnitude m)

theorem le_unitsOfMagnitude_magnitudeOfUnits (hd : 0 < d) (hm : m ≤ infinityMagnitude)
    (h : unitsOfMagnitude m * d ≤ a) :
    unitsOfMagnitude m ≤ unitsOfMagnitude (magnitudeOfUnits a d) := by
  have hnearest := magnitudeOfUnits_nearest a hd hm
  have hquotient : (unitsOfMagnitude m : ℚ) ≤ a / d := by
    rw [le_div_iff₀ (Nat.cast_pos.mpr hd)]
    exact_mod_cast h
  rw [abs_of_nonneg (sub_nonneg.mpr hquotient)] at hnearest
  have hle := (le_abs_self _).trans hnearest
  exact_mod_cast (by linarith : (unitsOfMagnitude m : ℚ)
    ≤ unitsOfMagnitude (magnitudeOfUnits a d))

end

/-! ### Whole numbers that are reals -/

/-- A whole number that is a real. -/
def Representable (n : Nat) : Prop :=
  ∃ m < infinityMagnitude, unitsOfMagnitude m = n * unitsOfOne

section

variable {n k top : Nat} {x f : Binary64}

theorem zero_lt_unitsOfOne : 0 < unitsOfOne := powerOfTwo_pos 1074

/-- Whole numbers that are reals lie below the power of two where an infinity stands. -/
theorem Representable.lt (h : Representable n) : n < powerOfTwo 1024 := by
  obtain ⟨m, hm, hunits⟩ := h
  have hlt := unitsOfMagnitude_strictMono hm
  rw [hunits, units_infinity] at hlt
  exact Nat.lt_of_mul_lt_mul_right hlt

/-- Fifty-three binary digits, and zeros behind them, are a real. -/
theorem representable_mul_powerOfTwo {s : Nat} (hn : n < powerOfTwo 53) (hs : s ≤ 971) :
    Representable (n * powerOfTwo s) := by
  obtain ⟨hupper, hlower⟩ := lastPlace_spec (n * powerOfTwo s * unitsOfOne) Nat.one_pos
  have hlt : n * powerOfTwo s * unitsOfOne < powerOfTwo (53 + s + 1074) := by
    unfold unitsOfOne
    rw [powerOfTwo_add, powerOfTwo_add]
    exact Nat.mul_lt_mul_of_pos_right (Nat.mul_lt_mul_of_pos_right hn (powerOfTwo_pos s))
      (powerOfTwo_pos 1074)
  generalize lastPlace (n * powerOfTwo s * unitsOfOne) 1 = p at *
  rw [Nat.one_mul] at hupper hlower
  -- the digits end above the last place, so nothing is lost there
  have hplace : p ≤ s + 1074 := by
    by_contra hp
    have hle := powerOfTwo_le_powerOfTwo (show 53 + s + 1074 ≤ p + 52 by omega)
    have := hlower (by omega)
    omega
  have hdvd : powerOfTwo p ∣ n * powerOfTwo s * unitsOfOne := by
    unfold unitsOfOne
    rw [Nat.mul_assoc, ← powerOfTwo_add]
    exact (Nat.pow_dvd_pow 2 hplace).mul_left n
  obtain ⟨r, hr⟩ := hdvd
  have hpow := powerOfTwo_pos p
  have hunits : unitsOfMagnitude (p * exponentBit + r) = n * powerOfTwo s * unitsOfOne := by
    rw [hr, Nat.mul_comm (powerOfTwo p)]
    rw [hr] at hlower hupper
    refine unitsOfMagnitude_eq (fun hp => ?_) ?_
    · have hle := hlower hp
      rw [powerOfTwo_add, powerOfTwo_fifty_two] at hle
      exact Nat.le_of_mul_le_mul_left hle hpow
    · rw [powerOfTwo_add, powerOfTwo_fifty_three] at hupper
      exact (Nat.lt_of_mul_lt_mul_left hupper).le
  refine ⟨_, unitsOfMagnitude_strictMono.lt_iff_lt.mp ?_, hunits⟩
  rw [hunits, units_infinity]
  calc n * powerOfTwo s * unitsOfOne
      < powerOfTwo (53 + s + 1074) := hlt
    _ ≤ powerOfTwo (1024 + 1074) := powerOfTwo_le_powerOfTwo (by omega)
    _ = powerOfTwo 1024 * unitsOfOne := by rw [unitsOfOne, ← powerOfTwo_add]

theorem representable_of_lt (hn : n < powerOfTwo 53) : Representable n := by
  have h := representable_mul_powerOfTwo hn (Nat.zero_le 971)
  rwa [powerOfTwo_zero, Nat.mul_one] at h

/-- A whole number that is a real is not rounded. -/
theorem exists_ofNat_eq (h : Representable n) : ∃ m < infinityMagnitude,
    ofNat n = ofMagnitude false m ∧ unitsOfMagnitude m = n * unitsOfOne := by
  obtain ⟨m, hm, hunits⟩ := h
  have hround := magnitudeOfUnits_units Nat.one_pos hm.le
  rw [hunits, Nat.mul_one] at hround
  exact ⟨m, hm, congrArg (ofMagnitude false) hround, hunits⟩

/-! ### The next whole number -/

theorem ceilSaturating_le (hk : Representable k) (h : x.units ≤ k * unitsOfOne) :
    x.ceilSaturating top ≤ k := by
  unfold ceilSaturating
  split_ifs with hnone hinfinite
  · exact Nat.zero_le k
  · have hunits : x.units = powerOfTwo 1024 * unitsOfOne := by
      rw [units, beq_iff_eq.mp hinfinite, units_infinity]
    rw [hunits] at h
    exact absurd (Nat.le_of_mul_le_mul_right h zero_lt_unitsOfOne) (Nat.not_le.mpr hk.lt)
  · refine (Nat.min_le_left _ _).trans ?_
    rw [Nat.div_le_iff_le_mul_add_pred zero_lt_unitsOfOne, Nat.mul_comm unitsOfOne]
    exact Nat.add_le_add_right h _

theorem le_ceilSaturating (hnan : x.isNaN = false) (hsign : x.negative = false) (htop : k ≤ top)
    (h : k * unitsOfOne ≤ x.units) : k ≤ x.ceilSaturating top := by
  unfold ceilSaturating
  rw [hnan, hsign, Bool.or_self, if_neg Bool.false_ne_true]
  split_ifs with hinfinite
  · exact htop
  · refine Nat.le_min.mpr ⟨?_, htop⟩
    rw [Nat.le_div_iff_mul_le zero_lt_unitsOfOne]
    exact h.trans (Nat.le_add_right _ _)

/-! ### Products -/

theorem value_of_not_negative (hsign : f.negative = false) : f.value = f.units / unitsOfOne := by
  rw [value, hsign, signOf, if_neg Bool.false_ne_true, one_mul]

/-- A whole number times a real is the exact product, rounded. -/
theorem ofNat_mul (hn : Representable n) (hnan : f.isNaN = false) (hsign : f.negative = false)
    (hfinite : f.isInfinite = false) : (ofNat n).mul f
      = ofMagnitude false (magnitudeOfUnits (n * unitsOfOne * f.units) unitsOfOne) := by
  obtain ⟨m, hm, hword, hunits⟩ := exists_ofNat_eq hn
  have hinfinite : (ofMagnitude false m).isInfinite = false := by
    rw [isInfinite, magnitude_ofMagnitude hm.le]
    exact beq_false_of_ne hm.ne
  rw [hword, mul, isNaN_ofMagnitude hm.le, hnan, hinfinite, hfinite, negative_ofMagnitude hm.le,
    hsign, units_ofMagnitude hm.le, hunits]
  rfl

/-- A positive whole number times infinity is infinity. -/
theorem ofNat_mul_infinite (hpos : 0 < n) (hn : Representable n) (hnan : f.isNaN = false)
    (hsign : f.negative = false) (hinfinite : f.isInfinite = true) :
    (ofNat n).mul f = infinity false := by
  obtain ⟨m, hm, hword, hunits⟩ := exists_ofNat_eq hn
  have hm0 : m ≠ 0 := by
    rintro rfl
    exact (Nat.mul_pos hpos zero_lt_unitsOfOne).ne hunits
  have hzero : (ofMagnitude false m).isZero = false := by
    rw [isZero, magnitude_ofMagnitude hm.le]
    exact beq_false_of_ne hm0
  have hzero' : f.isZero = false := by
    rw [isZero, beq_iff_eq.mp hinfinite]
    rfl
  rw [hword, mul, isNaN_ofMagnitude hm.le, hnan, hinfinite, hzero, hzero',
    negative_ofMagnitude hm.le, hsign, Bool.or_true]
  rfl

theorem value_of_isInfinite (hsign : f.negative = false) (h : f.isInfinite = true) :
    f.value = powerOfTwo 1024 := by
  rw [value_of_not_negative hsign, units, beq_iff_eq.mp h, units_infinity, Nat.cast_mul,
    mul_div_cancel_right₀ _ unitsOfOne_pos.ne']

/-- A multiple at most as large as a whole number that is a real stays so. -/
theorem ceilSaturating_mul_le (hn : Representable n) (hk : Representable k)
    (hnan : f.isNaN = false) (hsign : f.negative = false) (hfinite : f.isInfinite = false)
    (h : n * f.value ≤ k) : ((ofNat n).mul f).ceilSaturating top ≤ k := by
  obtain ⟨m, hm, hunits⟩ := id hk
  rw [value_of_not_negative hsign, mul_div_assoc', div_le_iff₀ unitsOfOne_pos] at h
  have hle : n * f.units ≤ unitsOfMagnitude m := by
    rw [hunits]
    exact_mod_cast h
  refine ceilSaturating_le hk ?_
  rw [ofNat_mul hn hnan hsign hfinite, units_ofMagnitude (magnitudeOfUnits_le _ _), ← hunits]
  refine unitsOfMagnitude_magnitudeOfUnits_le zero_lt_unitsOfOne hm.le ?_
  rw [Nat.mul_right_comm]
  exact Nat.mul_le_mul_right _ hle

/-- A multiple at least as large as a whole number that is a real stays so. -/
theorem le_ceilSaturating_mul (hpos : 0 < n) (hn : Representable n) (hk : Representable k)
    (htop : k ≤ top) (hnan : f.isNaN = false) (hsign : f.negative = false)
    (h : k ≤ n * f.value) : k ≤ ((ofNat n).mul f).ceilSaturating top := by
  obtain ⟨m, hm, hunits⟩ := id hk
  cases hinfinite : f.isInfinite with
  | true =>
    rw [ofNat_mul_infinite hpos hn hnan hsign hinfinite]
    exact htop
  | false =>
    rw [value_of_not_negative hsign, mul_div_assoc', le_div_iff₀ unitsOfOne_pos] at h
    have hle : unitsOfMagnitude m ≤ n * f.units := by
      rw [hunits]
      exact_mod_cast h
    rw [ofNat_mul hn hnan hsign hinfinite]
    refine le_ceilSaturating (isNaN_ofMagnitude (magnitudeOfUnits_le _ _))
      (negative_ofMagnitude (magnitudeOfUnits_le _ _)) htop ?_
    rw [units_ofMagnitude (magnitudeOfUnits_le _ _), ← hunits]
    refine le_unitsOfMagnitude_magnitudeOfUnits zero_lt_unitsOfOne hm.le ?_
    rw [Nat.mul_right_comm]
    exact Nat.mul_le_mul_right _ hle

end

end Binary64

end Columnar
