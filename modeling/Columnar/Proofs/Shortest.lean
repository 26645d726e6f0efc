import Columnar.Decimal.Shortest
import Columnar.Proofs.Rounding

/-!
# The shortest decimal is read back

A decimal is chosen for a real only if it is read back to it, and the real in full is the last
choice.  Zeros that are dropped do not change the value, so they do not change what is read.

## Main results

* `Binary64.readsBack_shortest` — the decimal that is chosen is read back to the magnitude.
* `Binary64.toBinary64_shortest` — **without its zeros it becomes the real again.**
-/

namespace Columnar

namespace Decimal

open Binary64

/-- The sign of a decimal is the sign of the real. -/
theorem toBinary64_eq_ofMagnitude (negative : Bool) (d : Decimal) :
    d.toBinary64 negative = ofMagnitude negative (d.toBinary64 false).magnitude := by
  obtain ⟨num, den, hden, hd⟩ := d.exists_ratio
  rw [toBinary64_eq_ofRatio negative hden hd, toBinary64_eq_ofRatio false hden hd, ofRatio,
    ofRatio, magnitude_ofMagnitude (magnitudeOfUnits_le _ _)]

/-! ### Zeros at the end -/

theorem value_dropZeros (fuel : Nat) (d : Decimal) : (d.dropZeros fuel).value = d.value := by
  induction fuel generalizing d with
  | zero => rfl
  | succ fuel ih =>
    rw [dropZeros]
    split_ifs with h
    · have hdigits : (d.digits / 10 : Nat) * (10 : ℚ) = d.digits := by
        exact_mod_cast Nat.div_mul_cancel (Nat.dvd_of_mod_eq_zero h.1)
      rw [ih, value, value, zpow_add_one₀ (by norm_num), ← hdigits]
      ring
    · rfl

theorem digits_dropZeros_ne_zero (fuel : Nat) {d : Decimal} (h : d.digits ≠ 0) :
    (d.dropZeros fuel).digits ≠ 0 := by
  induction fuel generalizing d with
  | zero => exact h
  | succ fuel ih =>
    rw [dropZeros]
    split_ifs with hz
    · exact ih (d := ⟨d.digits / 10, d.exponent + 1⟩) (by dsimp only; omega)
    · exact h

end Decimal

namespace Binary64

variable {x : Binary64}

/-! ### Decimals that are read back -/

theorem toBinary64_of_readsBack {d : Decimal} (h : x.readsBack d = true) :
    d.toBinary64 x.negative = x := by
  rw [d.toBinary64_eq_ofMagnitude, eq_of_beq h, ofMagnitude_eq]

/-- A decimal for a number other than zero is not zero. -/
theorem digits_ne_zero_of_readsBack {d : Decimal} (h : x.readsBack d = true)
    (hx : x.isZero = false) : d.digits ≠ 0 := by
  intro hzero
  have hmagnitude : (d.toBinary64 false).magnitude = 0 := by
    rw [Decimal.toBinary64, if_pos hzero, magnitude_ofMagnitude (Nat.zero_le _)]
  have hx' : x.magnitude = 0 := (eq_of_beq h).symm.trans hmagnitude
  rw [isZero, hx'] at hx
  cases hx

theorem nearestEven_eq_or (a d : Nat) :
    nearestEven a d = a / d ∨ nearestEven a d = a / d + 1 := by
  unfold nearestEven
  dsimp only
  split_ifs <;> simp

/-- A neighbour on the grid is chosen only if it is read back. -/
theorem readsBack_of_onGrid? {k : Int} {d : Decimal} (h : x.onGrid? k = some d) :
    x.readsBack d = true := by
  simp only [onGrid?] at h
  split at h
  · next hbelow habove =>
    cases h
    rcases nearestEven_eq_or (x.inPowersOfTen k).1 (x.inPowersOfTen k).2 with heq | heq
    · rwa [heq]
    · rwa [heq]
  · next hbelow _ =>
    cases h
    exact hbelow
  · next _ habove =>
    cases h
    exact habove
  · cases h

/-- Every binary fraction is a decimal one. -/
theorem value_binaryFraction (u n : Nat) :
    Decimal.value ⟨u * Nat.pow 5 n, -n⟩ = u / powerOfTwo n := by
  have hfive : ((Nat.pow 5 n : Nat) : ℚ) = 5 ^ n := Nat.cast_pow 5 n
  have htwo : (powerOfTwo n : ℚ) = 2 ^ n := Nat.cast_pow 2 n
  have hten : (10 : ℚ) ^ n = 5 ^ n * 2 ^ n := by
    rw [← mul_pow]
    norm_num
  rw [Decimal.value, Nat.cast_mul, hfive, htwo, zpow_neg, zpow_natCast, hten]
  field_simp

/-- A magnitude in full has its value. -/
theorem value_exactDecimal (x : Binary64) : x.exactDecimal.value = x.units / unitsOfOne := by
  have hexponent : (-1074 : Int) = -(1074 : Nat) := rfl
  unfold exactDecimal unitsOfOne
  rw [hexponent]
  generalize 1074 = n
  exact value_binaryFraction x.units n

theorem readsBack_exactDecimal (h : x.isFinite = true) : x.readsBack x.exactDecimal = true := by
  have hone : 0 < unitsOfOne := powerOfTwo_pos 1074
  have hle : x.magnitude ≤ infinityMagnitude := Nat.le_of_lt (of_decide_eq_true h)
  rw [readsBack, Decimal.toBinary64_eq_ofRatio false hone x.value_exactDecimal, ofRatio, units,
    magnitudeOfUnits_units hone hle, magnitude_ofMagnitude hle]
  exact beq_self_eq_true _

/-- The decimal that is chosen is read back to the magnitude. -/
theorem readsBack_shortest (h : x.isFinite = true) : x.readsBack x.shortest = true := by
  simp only [shortest]
  cases hfind : (List.range 17).findSome? fun n : Nat => x.onGrid? (x.leadingPower - n) with
  | none => exact readsBack_exactDecimal h
  | some d =>
    obtain ⟨n, -, hn⟩ := List.exists_of_findSome?_eq_some hfind
    exact readsBack_of_onGrid? hn

/-- **Without its zeros, the shortest decimal becomes the real again.** -/
theorem toBinary64_shortest (h : x.isFinite = true) (fuel : Nat) :
    (x.shortest.dropZeros fuel).toBinary64 x.negative = x := by
  rw [Decimal.toBinary64_congr x.negative (Decimal.value_dropZeros fuel x.shortest),
    toBinary64_of_readsBack (readsBack_shortest h)]

end Binary64

end Columnar
