import Columnar.Proofs.Nearest

/-!
# Rounding depends on the value alone

One value is many quotients, and many decimals.  Equal quotients have the same last place and
the same nearest whole number there, so they are rounded alike; and where a decimal is so large
or so small that no quotient is built for it, rounding the quotient would have given the same.

## Main results

* `Binary64.magnitudeOfUnits_congr` — equal quotients are rounded alike.
* `Binary64.magnitudeOfUnits_units` — a magnitude is rounded to itself.
* `Decimal.toBinary64_eq_ofRatio` — **a decimal becomes what its value is rounded to.**
* `Decimal.toBinary64_congr` — **decimals of one value become one real.**
-/

namespace Columnar

/-! ### Equal quotients -/

theorem nearestEven_mul_right (a d : Nat) {k : Nat} (hk : 0 < k) :
    nearestEven (a * k) (d * k) = nearestEven a d := by
  have hbelow : 2 * (a % d * k) < d * k ↔ 2 * (a % d) < d := by
    rw [← Nat.mul_assoc]
    exact Nat.mul_lt_mul_right hk
  have habove : d * k < 2 * (a % d * k) ↔ d < 2 * (a % d) := by
    rw [← Nat.mul_assoc]
    exact Nat.mul_lt_mul_right hk
  simp only [nearestEven, Nat.mul_div_mul_right a d hk, Nat.mul_mod_mul_right, hbelow, habove]

section

variable {a d a' d' : Nat}

theorem nearestEven_congr (hd : 0 < d) (hd' : 0 < d') (h : a * d' = a' * d) :
    nearestEven a d = nearestEven a' d' := by
  rw [← nearestEven_mul_right a d hd', h, Nat.mul_comm d d', nearestEven_mul_right a' d' hd]

namespace Binary64

/-- A quotient in the binade of a last place does not lie below the one before. -/
theorem lastPlace_le (hd : 0 < d) (hd' : 0 < d') (h : a * d' = a' * d) :
    lastPlace a d ≤ lastPlace a' d' := by
  by_contra hlt
  have hpow : powerOfTwo (lastPlace a' d' + 53) ≤ powerOfTwo (lastPlace a d + 52) :=
    powerOfTwo_le_powerOfTwo (by omega)
  have hlow := (lastPlace_spec a hd).2 (by omega)
  have hhigh := (lastPlace_spec a' hd').1
  have hself : a * d' < a * d' := by
    calc a * d' = a' * d := h
      _ < d' * powerOfTwo (lastPlace a' d' + 53) * d := Nat.mul_lt_mul_of_pos_right hhigh hd
      _ ≤ d' * powerOfTwo (lastPlace a d + 52) * d :=
        Nat.mul_le_mul_right d (Nat.mul_le_mul_left d' hpow)
      _ = d * powerOfTwo (lastPlace a d + 52) * d' := by ring
      _ ≤ a * d' := Nat.mul_le_mul_right d' hlow
  exact absurd hself (Nat.lt_irrefl _)

theorem lastPlace_congr (hd : 0 < d) (hd' : 0 < d') (h : a * d' = a' * d) :
    lastPlace a d = lastPlace a' d' :=
  Nat.le_antisymm (lastPlace_le hd hd' h) (lastPlace_le hd' hd h.symm)

/-- Equal quotients are rounded alike. -/
theorem magnitudeOfUnits_congr (hd : 0 < d) (hd' : 0 < d') (h : a * d' = a' * d) :
    magnitudeOfUnits a d = magnitudeOfUnits a' d' := by
  have hpow := powerOfTwo_pos (lastPlace a' d')
  have hscaled : a * (d' * powerOfTwo (lastPlace a' d'))
      = a' * (d * powerOfTwo (lastPlace a' d')) := by
    rw [← Nat.mul_assoc, h, Nat.mul_assoc]
  rw [magnitudeOfUnits_eq, magnitudeOfUnits_eq, roundedMagnitude, roundedMagnitude,
    lastPlace_congr hd hd' h,
    nearestEven_congr (Nat.mul_pos hd hpow) (Nat.mul_pos hd' hpow) hscaled]

end Binary64

end

namespace Binary64

/-! ### Quotients that are rounded to an end or to themselves -/

theorem magnitudeOfUnits_le (a d : Nat) : magnitudeOfUnits a d ≤ infinityMagnitude :=
  Nat.min_le_right _ _

/-- What is at least as large as an infinity becomes one. -/
theorem magnitudeOfUnits_of_large {a d : Nat} (hd : 0 < d)
    (h : (unitsOfMagnitude infinityMagnitude : ℚ) ≤ a / d) :
    magnitudeOfUnits a d = infinityMagnitude := by
  have hnearest := magnitudeOfUnits_nearest a hd (Nat.le_refl infinityMagnitude)
  have hle : (unitsOfMagnitude (magnitudeOfUnits a d) : ℚ)
      ≤ unitsOfMagnitude infinityMagnitude := by
    exact_mod_cast unitsOfMagnitude_strictMono.monotone (magnitudeOfUnits_le a d)
  rw [abs_of_nonneg (by linarith), abs_of_nonneg (by linarith)] at hnearest
  have hge : unitsOfMagnitude infinityMagnitude ≤ unitsOfMagnitude (magnitudeOfUnits a d) := by
    exact_mod_cast (by linarith : (unitsOfMagnitude infinityMagnitude : ℚ)
      ≤ unitsOfMagnitude (magnitudeOfUnits a d))
  exact Nat.le_antisymm (magnitudeOfUnits_le a d) (unitsOfMagnitude_strictMono.le_iff_le.mp hge)

/-- What is at most half of a unit becomes zero. -/
theorem magnitudeOfUnits_of_small {a d : Nat} (hd : 0 < d) (h : 2 * a ≤ d) :
    magnitudeOfUnits a d = 0 := by
  have hplace : lastPlace a d = 0 := by
    by_contra hne
    have hlow := (lastPlace_spec a hd).2 (Nat.pos_of_ne_zero hne)
    have hle : d * 1 ≤ d * powerOfTwo (lastPlace a d + 52) :=
      Nat.mul_le_mul_left d (powerOfTwo_pos _)
    omega
  have hdiv : a / d = 0 := Nat.div_eq_of_lt (by omega)
  have hmod : a % d = a := Nat.mod_eq_of_lt (by omega)
  have hround : nearestEven a d = 0 := by
    simp only [nearestEven, hdiv, hmod]
    rw [if_neg (Nat.not_lt.mpr h)]
    simp
  rw [magnitudeOfUnits_eq, roundedMagnitude, hplace, powerOfTwo_zero, Nat.mul_one, hround,
    Nat.zero_mul]
  exact Nat.min_eq_left (Nat.zero_le _)

/-- A magnitude is rounded to itself. -/
theorem magnitudeOfUnits_units {m d : Nat} (hd : 0 < d) (hm : m ≤ infinityMagnitude) :
    magnitudeOfUnits (unitsOfMagnitude m * d) d = m := by
  have hd' : (d : ℚ) ≠ 0 := Nat.cast_ne_zero.mpr (by omega)
  have hnearest := magnitudeOfUnits_nearest (unitsOfMagnitude m * d) hd hm
  rw [Nat.cast_mul, mul_div_cancel_right₀ _ hd', sub_self, abs_zero] at hnearest
  have hzero := sub_eq_zero.mp (abs_nonpos_iff.mp hnearest)
  have hunits : unitsOfMagnitude m
      = unitsOfMagnitude (magnitudeOfUnits (unitsOfMagnitude m * d) d) := by
    exact_mod_cast hzero
  exact (unitsOfMagnitude_strictMono.injective hunits).symm

/-- A word is its sign and its magnitude. -/
theorem ofMagnitude_eq (x : Binary64) : ofMagnitude x.negative x.magnitude = x := by
  have hbits : x.bits.toNat < 2 ^ 64 := x.bits.toNat_lt
  have hsum : (x.magnitude + if x.negative then signBit else 0) = x.bits.toNat := by
    unfold magnitude negative signBit
    split_ifs with h
    all_goals
      simp only [decide_eq_true_eq] at h
      omega
  unfold ofMagnitude
  rw [hsum, UInt64.ofNat_toNat]

end Binary64

/-! ### Decimals -/

namespace Decimal

open Binary64

theorem value_ofNat (digits e : Nat) :
    value ⟨digits, .ofNat e⟩ = (digits * powerOfTen e : Nat) / (1 : Nat) := by
  rw [Nat.cast_mul, cast_powerOfTen, Nat.cast_one, div_one]
  rfl

theorem value_negSucc (digits e : Nat) :
    value ⟨digits, .negSucc e⟩ = digits / (powerOfTen (e + 1) : Nat) := by
  rw [cast_powerOfTen, div_eq_mul_inv]
  rfl

/-- **A decimal becomes what its value is rounded to**, whatever the quotient. -/
theorem toBinary64_eq_ofRatio (negative : Bool) {d : Decimal} {num den : Nat} (hden : 0 < den)
    (h : d.value = num / den) : d.toBinary64 negative = ofRatio negative num den := by
  have hone := unitsOfOne_pos
  have hden' : (0 : ℚ) < den := Nat.cast_pos.mpr hden
  obtain ⟨digits, exponent⟩ := d
  -- the units of the quotient, with the value in place of the quotient
  have hunits : ((num * unitsOfOne : Nat) / den : ℚ) = value ⟨digits, exponent⟩ * unitsOfOne := by
    rw [h, Nat.cast_mul]
    ring
  have hquotient : ∀ {num' den' : Nat}, 0 < den' → value ⟨digits, exponent⟩ = num' / den' →
      ofRatio negative num' den' = ofRatio negative num den := by
    intro num' den' hden₁ h'
    have hden₁' : (den' : ℚ) ≠ 0 := Nat.cast_ne_zero.mpr (by omega)
    rw [h, div_eq_div_iff hden'.ne' hden₁'] at h'
    have hcross : num * den' = num' * den := by exact_mod_cast h'
    have hscaled : num' * unitsOfOne * den = num * unitsOfOne * den' := by
      calc num' * unitsOfOne * den = num' * den * unitsOfOne := by ring
        _ = num * den' * unitsOfOne := by rw [hcross]
        _ = num * unitsOfOne * den' := by ring
    rw [ofRatio, ofRatio, magnitudeOfUnits_congr hden₁ hden hscaled]
  have hsmall : 2 * value ⟨digits, exponent⟩ ≤ 1 / unitsOfOne →
      ofMagnitude negative 0 = ofRatio negative num den := by
    intro hle
    rw [ofRatio, magnitudeOfUnits_of_small hden]
    rw [le_div_iff₀ hone, mul_assoc, ← hunits, ← mul_div_assoc, div_le_one hden'] at hle
    exact_mod_cast hle
  unfold toBinary64
  dsimp only
  split_ifs with hzero hlarge hlow
  · refine hsmall ?_
    rw [value, hzero, Nat.cast_zero, zero_mul, mul_zero]
    exact div_nonneg zero_le_one hone.le
  · rw [ofRatio, magnitudeOfUnits_of_large hden, infinity]
    rw [hunits]
    exact (div_le_iff₀ hone).mp (le_value_of_large hzero hlarge)
  · exact hsmall (value_le_of_small hlow)
  · cases exponent with
    | ofNat e => exact hquotient Nat.one_pos (value_ofNat digits e)
    | negSucc e => exact hquotient (Nat.pow_pos (by decide)) (value_negSucc digits e)

/-- Every decimal has a quotient. -/
theorem exists_ratio (d : Decimal) : ∃ num den : Nat, 0 < den ∧ d.value = num / den := by
  obtain ⟨digits, exponent⟩ := d
  cases exponent with
  | ofNat e => exact ⟨_, _, Nat.one_pos, value_ofNat digits e⟩
  | negSucc e => exact ⟨_, _, Nat.pow_pos (by decide), value_negSucc digits e⟩

/-- **Decimals of one value become one real.** -/
theorem toBinary64_congr (negative : Bool) {d d' : Decimal} (h : d.value = d'.value) :
    d.toBinary64 negative = d'.toBinary64 negative := by
  obtain ⟨num, den, hden, hd⟩ := d.exists_ratio
  rw [toBinary64_eq_ofRatio negative hden hd, toBinary64_eq_ofRatio negative hden (h ▸ hd)]

end Decimal

end Columnar
