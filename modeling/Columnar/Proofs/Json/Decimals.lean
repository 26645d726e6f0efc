import Columnar.Proofs.Json.Numerals

/-!
# Reals with a bounded number of decimals

A real that is written with a bounded number of decimals is the literal of the decimal to which it
was rounded.  The fraction is filled up with zeros at its front, so that its digits stand at their
places, and loses the zeros at its end, which do not change the value.

## Main definitions

* `pointValue` — the value of digits around a point.
* `paddedDigits` — the digits of a fraction at their places.
* `Binary64.rounded` — the decimal to which a real is rounded.

## Main results

* `pointValue_fractionText` — zeros at the end of a fraction do not count.
* `pointValue_paddedDigits` — a whole number of units of the last decimal, cut at the point.
* `exists_literal_fixed` — **a real with a bounded number of decimals is the literal of the decimal
  to which it was rounded.**
-/

namespace Columnar

/-! ### Zeros at the end of a fraction -/

/-- The value of digits around a point. -/
def pointValue (whole part : List Char) : ℚ :=
  Nat.ofDigitChars 10 (whole ++ part) 0 * 10 ^ (-(part.length : Int))

theorem pointValue_append_zeros (whole part : List Char) (n : Nat) :
    pointValue whole (part ++ List.replicate n '0') = pointValue whole part := by
  have hten : (10 : ℚ) ^ n * 10 ^ (-((part.length + n : Nat) : Int))
      = 10 ^ (-(part.length : Int)) := by
    rw [← zpow_natCast, ← zpow_add₀ (by norm_num)]
    congr 1
    omega
  rw [pointValue, pointValue, ← List.append_assoc, Nat.ofDigitChars_append,
    Nat.ofDigitChars_replicate_zero, List.length_append, List.length_replicate, ← hten]
  push_cast
  ring

theorem exists_dropTrailingZeros (cs : List Char) :
    ∃ n, cs = dropTrailingZeros cs ++ List.replicate n '0' := by
  have hzeros : ∀ c ∈ cs.reverse.takeWhile (· == '0'), c = '0' := fun c hc =>
    eq_of_beq (List.all_eq_true.mp List.all_takeWhile c hc)
  refine ⟨(cs.reverse.takeWhile (· == '0')).length, ?_⟩
  rw [dropTrailingZeros, ← List.reverse_replicate, ← List.reverse_append,
    ← List.eq_replicate_length.mpr hzeros, List.takeWhile_append_dropWhile, List.reverse_reverse]

/-- Zeros at the end of a fraction do not count. -/
theorem pointValue_fractionText (whole part : List Char) :
    pointValue whole (fractionText part) = pointValue whole part := by
  obtain ⟨n, hn⟩ := exists_dropTrailingZeros part
  have hpart : pointValue whole part = pointValue whole (dropTrailingZeros part) := by
    rw [hn, pointValue_append_zeros, ← hn]
  rw [hpart, fractionText]
  split
  · next hnil =>
    rw [hnil]
    exact pointValue_append_zeros whole [] 1
  · rfl

theorem fractionText_ne_nil (part : List Char) : fractionText part ≠ [] := by
  unfold fractionText
  split <;> simp_all

theorem isDigit_fractionText {part : List Char} (h : ∀ c ∈ part, c.isDigit = true) :
    ∀ c ∈ fractionText part, c.isDigit = true := by
  obtain ⟨n, hn⟩ := exists_dropTrailingZeros part
  unfold fractionText
  split
  · exact isDigit_of_mem_zero
  · intro c hc
    refine h c ?_
    rw [hn]
    exact List.mem_append_left _ hc

/-! ### Digits at their places -/

/-- The digits of a fraction, with zeros before them up to the point. -/
def paddedDigits (places n : Nat) : List Char :=
  if places = 0 then []
  else List.replicate (places - (Nat.toDigits 10 n).length) '0' ++ Nat.toDigits 10 n

theorem isDigit_paddedDigits (places n : Nat) : ∀ c ∈ paddedDigits places n, c.isDigit = true := by
  unfold paddedDigits
  split
  · nofun
  · exact isDigit_append isDigit_of_mem_replicate isDigit_of_mem_toDigits

theorem paddedDigits_spec {places n : Nat} (h : n < powerOfTen places) :
    (paddedDigits places n).length = places ∧
      Nat.ofDigitChars 10 (paddedDigits places n) 0 = n := by
  unfold paddedDigits
  split
  · next hzero =>
    subst hzero
    rw [powerOfTen_zero] at h
    exact ⟨rfl, by simp; omega⟩
  · next hne =>
    have hlength : (Nat.toDigits 10 n).length ≤ places :=
      (Nat.length_toDigits_le_iff (by decide) (Nat.pos_of_ne_zero hne)).mpr h
    refine ⟨?_, ?_⟩
    · rw [List.length_append, List.length_replicate]
      omega
    · rw [Nat.ofDigitChars_append, Nat.ofDigitChars_replicate_zero, Nat.mul_zero,
        Nat.ofDigitChars_ten_toDigits]

/-- A whole number of units of the last decimal, cut at the point. -/
theorem pointValue_paddedDigits (places n : Nat) :
    pointValue (Nat.toDigits 10 (n / powerOfTen places))
        (paddedDigits places (n % powerOfTen places))
      = Decimal.value ⟨n, -places⟩ := by
  have hpos : 0 < powerOfTen places := Nat.pow_pos (by decide)
  obtain ⟨hlength, hvalue⟩ := paddedDigits_spec (Nat.mod_lt n hpos)
  rw [pointValue, Nat.ofDigitChars_append, Nat.ofDigitChars_ten_toDigits,
    Nat.ofDigitChars_eq_ofDigitChars_zero, hvalue, hlength, Decimal.value]
  have hn : 10 ^ places * (n / powerOfTen places) + n % powerOfTen places = n := Nat.div_add_mod n _
  rw [hn]

/-! ### Texts of rounded reals -/

/-- The decimal to which a real is rounded.  No finite real has more than 1074 decimals. -/
def Binary64.rounded (x : Binary64) (decimals : Nat) : Decimal :=
  ⟨x.roundedTo (min decimals 1074), -(min decimals 1074 : Nat)⟩

theorem Binary64.toFixedText_eq (x : Binary64) (decimals : Nat) :
    ∃ body, IsNumeral body (x.rounded decimals).value ∧
      x.toFixedText decimals = String.ofList (if x.negative then '-' :: body else body) := by
  have hdigits := isDigit_paddedDigits (min decimals 1074)
    (x.roundedTo (min decimals 1074) % powerOfTen (min decimals 1074))
  have hnumeral := isNumeral_point (isWhole_toDigits
    (x.roundedTo (min decimals 1074) / powerOfTen (min decimals 1074)))
    (fractionText_ne_nil _) (isDigit_fractionText hdigits)
  refine ⟨_, ?_, rfl⟩
  rw [rounded, ← pointValue_paddedDigits, ← pointValue_fractionText]
  exact hnumeral

/-- **A real with a bounded number of decimals is the literal of the decimal to which it was
rounded.** -/
theorem exists_literal_fixed (x : Binary64) (decimals : Nat) :
    ∃ p : NumberParts, p.IsGrammatical ∧ p.literal = Utf8.encodeString (x.toFixedText decimals) ∧
      p.number = .real ((x.rounded decimals).toBinary64 x.negative) := by
  obtain ⟨body, hbody, htext⟩ := x.toFixedText_eq decimals
  rw [htext]
  exact hbody.exists_literal x.negative

end Columnar
