import Columnar.Json.TextWriter
import Columnar.Proofs.Json.Decimals
import Columnar.Proofs.Json.Joined

/-!
# Decimals that are trimmed in place

A real with a bounded number of decimals may be written in full and then trimmed where it stands:
the zeros at the end of the whole text are dropped, down to a single one behind the point.  Only
zeros of the new text are reached, because a point comes before them; so what was written before
stays, even if it ends in zeros or in a point itself.  What is added is a number with a fraction,
and its value is the real, rounded to the given number of decimals.

## Main definitions

* `IsRounded` — the multiple of the last decimal that is nearest, of two nearest ones the even one.
* `IsTrimmed` — the digits of a fraction without zeros at its end.
* `Binary64.paddedText` — all decimals of a real, as many as are asked for.
* `trimBehind` — a text behind others, trimmed where it stands.

## Main results

* `Binary64.isRounded_roundedTo` — a real is rounded to the nearest multiple of a decimal.
* `trimBehind_paddedText` — **trimming in place leaves what was there before.**
* `WriteOptions.fixed_text` — **a real with a bounded number of decimals is written as a trimmed
  number.**
-/

namespace Columnar

/-! ### The nearest multiple of a decimal -/

/-- A multiple of the last of so many decimals that is nearest to a rational; if two are, it is the
even one. -/
def IsRounded (decimals : Nat) (q v : ℚ) : Prop :=
  ∃ n : ℤ, v = n / 10 ^ decimals ∧ (∀ m : ℤ, |q - v| ≤ |q - m / 10 ^ decimals|) ∧
    ∀ m : ℤ, m ≠ n → |q - v| = |q - m / 10 ^ decimals| → Even n

theorem isRounded_of_abs_le_half (decimals : Nat) {q : ℚ} {n : ℤ}
    (hle : |q * 10 ^ decimals - n| ≤ 1 / 2)
    (heven : |q * 10 ^ decimals - n| = 1 / 2 → Even n) :
    IsRounded decimals q (n / 10 ^ decimals) := by
  have hpow : (0 : ℚ) < 10 ^ decimals := by positivity
  have hscale : ∀ m : ℤ, |q - m / 10 ^ decimals| = |q * 10 ^ decimals - m| / 10 ^ decimals := by
    intro m
    rw [← abs_of_pos hpow, ← abs_div, abs_of_pos hpow, sub_div, mul_div_cancel_right₀ _ hpow.ne']
  -- any other multiple is at least as far away as a half
  have hother : ∀ m : ℤ, m ≠ n → 1 / 2 ≤ |q * 10 ^ decimals - m| := by
    intro m hm
    have hone : (1 : ℚ) ≤ |(m : ℚ) - n| := by exact_mod_cast Int.one_le_abs (sub_ne_zero.mpr hm)
    have htriangle := abs_sub_le (m : ℚ) (q * 10 ^ decimals) n
    rw [abs_sub_comm (m : ℚ) (q * 10 ^ decimals)] at htriangle
    linarith
  refine ⟨n, rfl, fun m => ?_, fun m hm heq => heven ?_⟩
  · rw [hscale, hscale]
    refine div_le_div_of_nonneg_right ?_ hpow.le
    by_cases hm : m = n
    · rw [hm]
    · exact hle.trans (hother m hm)
  · rw [hscale, hscale, div_left_inj' hpow.ne'] at heq
    exact le_antisymm hle (heq ▸ hother m hm)

theorem powerOfTwo_dvd_powerOfTen {m n : Nat} (h : m ≤ n) : powerOfTwo m ∣ powerOfTen n :=
  (Nat.pow_dvd_pow 2 h).trans (pow_dvd_pow_of_dvd (by decide) n)

namespace Binary64

variable (x : Binary64) {places : Nat}

/-- A whole number under a sign. -/
theorem cast_signed (negative : Bool) (m : Nat) :
    ((if negative then -m else m : ℤ) : ℚ) = signOf negative * m := by
  cases negative with
  | false => simp [signOf]
  | true => simp [signOf]

/-- **A real is rounded to the nearest multiple of a decimal**, a half to the even one. -/
theorem isRounded_roundedTo (decimals : Nat) : IsRounded decimals x.value
    (signOf x.negative * (x.roundedTo decimals / 10 ^ decimals)) := by
  have hone : 0 < unitsOfOne := powerOfTwo_pos 1074
  let n : ℤ := if x.negative then -x.roundedTo decimals else x.roundedTo decimals
  have hn : (n : ℚ) = signOf x.negative * x.roundedTo decimals := cast_signed x.negative _
  have hdistance : |x.value * 10 ^ decimals - n|
      = |((x.units * powerOfTen decimals : Nat) / unitsOfOne : ℚ) - x.roundedTo decimals| := by
    have hvalue : x.value * 10 ^ decimals - n = signOf x.negative
        * ((x.units * powerOfTen decimals : Nat) / unitsOfOne - x.roundedTo decimals) := by
      rw [value, hn, Nat.cast_mul, cast_powerOfTen]
      ring
    rw [hvalue, abs_mul, abs_signOf, one_mul]
  have hrounded := isRounded_of_abs_le_half decimals (q := x.value) (n := n)
    (by rw [hdistance]; exact abs_sub_nearestEven_le _ hone) (fun htie => ?_)
  · rwa [hn, mul_div_assoc] at hrounded
  · rw [hdistance] at htie
    have heven := even_nearestEven hone htie
    have heven' : Even (x.roundedTo decimals : ℤ) := by exact_mod_cast heven
    unfold n
    split_ifs
    · exact heven'.neg
    · exact heven'

/-- A real has at most 1074 decimals. -/
theorem roundedTo_add (hplaces : 1074 ≤ places) (k : Nat) :
    x.roundedTo (places + k) = x.roundedTo places * powerOfTen k := by
  have hone : 0 < unitsOfOne := powerOfTwo_pos 1074
  have hdvd : unitsOfOne ∣ powerOfTen places := powerOfTwo_dvd_powerOfTen hplaces
  obtain ⟨c, hc⟩ := hdvd.mul_left x.units
  -- so with that many decimals nothing is left to round
  have hexact : ∀ b, nearestEven (unitsOfOne * b) unitsOfOne = b := by
    intro b
    rw [nearestEven, Nat.mul_div_cancel_left b hone, Nat.mul_mod_right]
    exact if_pos hone
  have hpow : x.units * powerOfTen (places + k) = unitsOfOne * (c * powerOfTen k) := by
    rw [← Nat.mul_assoc, ← hc, Nat.mul_assoc]
    exact congrArg _ (Nat.pow_add 10 places k)
  rw [roundedTo, roundedTo, hpow, hc, hexact, hexact]

end Binary64

/-! ### Zeros at the end -/

/-- Digits of a fraction: at least one, no more than so many unless that is none, and no zero at
the end unless it is the only one. -/
structure IsTrimmed (decimals : Nat) (part : List Char) : Prop where
  digits : ∀ c ∈ part, c.isDigit = true
  pos : 0 < part.length
  length_le : part.length ≤ max decimals 1
  last : part = ['0'] ∨ part.getLast? ≠ some '0'

section

variable (cs : List Char)

theorem getLast?_dropTrailingZeros : (dropTrailingZeros cs).getLast? ≠ some '0' := by
  intro h
  rw [dropTrailingZeros, List.getLast?_reverse] at h
  have hnot := List.head?_dropWhile_not (· == '0') cs.reverse
  rw [h] at hnot
  exact absurd hnot (by decide)

theorem length_dropTrailingZeros_le : (dropTrailingZeros cs).length ≤ cs.length := by
  rw [dropTrailingZeros, List.length_reverse, ← cs.length_reverse]
  exact (List.dropWhile_sublist _).length_le

/-- Zeros are dropped from the end of a text up to any other character. -/
theorem dropTrailingZeros_append_cons (front : List Char) {c : Char} (hc : c ≠ '0') :
    dropTrailingZeros (front ++ c :: cs) = front ++ c :: dropTrailingZeros cs := by
  unfold dropTrailingZeros
  rw [List.reverse_append, List.reverse_cons, List.append_assoc, List.dropWhile_append]
  -- read from the end, either all the rest is zeros and `c` stops them, or they stop before
  split
  · next h =>
    rw [List.isEmpty_iff.mp h]
    simp [hc]
  · simp

theorem dropTrailingZeros_replicate (n : Nat) :
    dropTrailingZeros (cs ++ List.replicate n '0') = dropTrailingZeros cs := by
  rw [dropTrailingZeros, List.reverse_append, List.reverse_replicate,
    List.dropWhile_append_of_pos (fun c hc => by simp [List.eq_of_mem_replicate hc])]
  rfl

theorem isTrimmed_fractionText {decimals : Nat} (hdigits : ∀ c ∈ cs, c.isDigit = true)
    (hlength : cs.length ≤ decimals) : IsTrimmed decimals (fractionText cs) := by
  refine ⟨isDigit_fractionText hdigits, List.length_pos_iff.mpr (fractionText_ne_nil cs), ?_, ?_⟩
  · have hdrop := length_dropTrailingZeros_le cs
    unfold fractionText
    split
    · exact Nat.le_max_right _ _
    · omega
  · unfold fractionText
    split
    · exact .inl rfl
    · exact .inr (getLast?_dropTrailingZeros cs)

end

/-! ### Trimming in place -/

/-- A text behind another one, without the zeros at the end of both: at least one is left behind a
point, and a point with a zero is added if there is none. -/
def trimBehind (out text : List Char) : List Char :=
  if '.' ∈ text then
    let kept := dropTrailingZeros (out ++ text)
    if kept.getLast? = some '.' then kept ++ ['0'] else kept
  else out ++ text ++ ['.', '0']

/-- Only the digits behind the point are reached. -/
theorem trimBehind_point (out whole : List Char) {part : List Char}
    (hpart : ∀ c ∈ part, c.isDigit = true) :
    trimBehind out (whole ++ '.' :: part) = out ++ (whole ++ '.' :: fractionText part) := by
  have hkept : dropTrailingZeros (out ++ (whole ++ '.' :: part))
      = out ++ whole ++ '.' :: dropTrailingZeros part := by
    rw [← List.append_assoc, dropTrailingZeros_append_cons _ _ (by decide)]
  obtain ⟨n, hn⟩ := exists_dropTrailingZeros part
  unfold trimBehind
  rw [if_pos (by simp), hkept]
  unfold fractionText
  split
  · next hnil => simp [hnil]
  · next hne =>
    have hlast : (out ++ whole ++ '.' :: dropTrailingZeros part).getLast? ≠ some '.' := by
      intro hlast
      rw [List.getLast?_append_of_ne_nil _ (List.cons_ne_nil _ _), List.getLast?_cons_of_ne_nil hne]
        at hlast
      have hmem : '.' ∈ part := by
        rw [hn]
        exact List.mem_append_left _ (List.mem_of_getLast? hlast)
      exact absurd (hpart _ hmem) (by decide)
    rw [if_neg hlast, List.append_assoc]

/-- Without a point, one is added. -/
theorem trimBehind_whole (out : List Char) {whole : List Char} (h : '.' ∉ whole) :
    trimBehind out whole = out ++ (whole ++ '.' :: fractionText []) := by
  rw [trimBehind, if_neg h, List.append_assoc]
  rfl

/-! ### All decimals -/

section

variable {places n : Nat}

theorem paddedDigits_succ (h : n < powerOfTen places) :
    paddedDigits (places + 1) (n * 10) = paddedDigits places n ++ ['0'] := by
  have hsucc : paddedDigits (places + 1) (n * 10)
      = List.replicate (places + 1 - (Nat.toDigits 10 (n * 10)).length) '0'
        ++ Nat.toDigits 10 (n * 10) := if_neg (Nat.succ_ne_zero places)
  rw [hsucc]
  rcases Nat.eq_zero_or_pos places with rfl | hplaces
  · obtain rfl : n = 0 := Nat.lt_one_iff.mp h
    rfl
  · rw [paddedDigits, if_neg (Nat.pos_iff_ne_zero.mp hplaces)]
    rcases Nat.eq_zero_or_pos n with rfl | hn
    -- zero has one digit, and ten times zero has no more
    · obtain ⟨p, rfl⟩ := Nat.exists_eq_succ_of_ne_zero (Nat.pos_iff_ne_zero.mp hplaces)
      simp [List.replicate_succ']
    · have hdigits := Nat.toDigits_append_toDigits (b := 10) (d := 0) (by decide) hn (by decide)
      rw [Nat.add_zero, Nat.mul_comm 10 n] at hdigits
      rw [← hdigits, Nat.toDigits_zero, List.length_append, List.length_singleton,
        Nat.add_sub_add_right, List.append_assoc]

/-- More places than digits are filled up with zeros behind them. -/
theorem paddedDigits_mul (h : n < powerOfTen places) (k : Nat) :
    paddedDigits (places + k) (n * powerOfTen k)
      = paddedDigits places n ++ List.replicate k '0' := by
  induction k with
  | zero => rw [powerOfTen_zero, Nat.mul_one, Nat.add_zero, List.replicate_zero, List.append_nil]
  | succ k ih =>
    have hlt : n * powerOfTen k < powerOfTen (places + k) := by
      rw [show powerOfTen (places + k) = powerOfTen places * powerOfTen k from Nat.pow_add ..]
      exact Nat.mul_lt_mul_of_pos_right h (Nat.pow_pos (by decide))
    rw [powerOfTen_succ, ← Nat.mul_assoc, ← Nat.add_assoc, paddedDigits_succ hlt, ih,
      List.append_assoc, ← List.replicate_succ']

end

/-- The minus of a negative number. -/
def signChars (negative : Bool) : List Char := if negative then ['-'] else []

namespace Binary64

variable (x : Binary64) (decimals : Nat)

/-- The digits before the point, once a real is rounded. -/
def wholeDigits : List Char := Nat.toDigits 10 (x.roundedTo decimals / powerOfTen decimals)

/-- The digits behind the point, once a real is rounded: as many as are asked for. -/
def partDigits : List Char :=
  paddedDigits decimals (x.roundedTo decimals % powerOfTen decimals)

/-- A finite real with exactly so many decimals; without any, there is no point. -/
def paddedText : List Char :=
  signChars x.negative ++ x.wholeDigits decimals
    ++ if decimals = 0 then [] else '.' :: x.partDigits decimals

theorem isDigit_partDigits : ∀ c ∈ x.partDigits decimals, c.isDigit = true :=
  isDigit_paddedDigits _ _

theorem length_partDigits : (x.partDigits decimals).length = decimals :=
  (paddedDigits_spec (Nat.mod_lt _ (Nat.pow_pos (by decide)))).1

/-- Decimals behind the last one that a real can have are zeros. -/
theorem digits_add {places : Nat} (hplaces : 1074 ≤ places) (k : Nat) :
    x.wholeDigits (places + k) = x.wholeDigits places ∧
      x.partDigits (places + k) = x.partDigits places ++ List.replicate k '0' := by
  have hpos : 0 < powerOfTen k := Nat.pow_pos (by decide)
  have hpow : powerOfTen (places + k) = powerOfTen places * powerOfTen k := Nat.pow_add ..
  have hmod : x.roundedTo places % powerOfTen places < powerOfTen places :=
    Nat.mod_lt _ (Nat.pow_pos (by decide))
  constructor
  · rw [wholeDigits, x.roundedTo_add hplaces, hpow, Nat.mul_div_mul_right _ _ hpos]
    rfl
  · rw [partDigits, x.roundedTo_add hplaces, hpow, Nat.mul_mod_mul_right, paddedDigits_mul hmod]
    rfl

/-- No more than these decimals are needed. -/
theorem digits_min {places : Nat} (hplaces : 1074 ≤ places) :
    x.wholeDigits (min decimals places) = x.wholeDigits decimals ∧
      fractionText (x.partDigits (min decimals places)) = fractionText (x.partDigits decimals) := by
  rcases Nat.le_total decimals places with hle | hge
  · rw [Nat.min_eq_left hle]
    exact ⟨rfl, rfl⟩
  · obtain ⟨k, rfl⟩ := Nat.exists_eq_add_of_le hge
    obtain ⟨hwhole, hpart⟩ := x.digits_add hplaces k
    rw [Nat.min_eq_right hge, hwhole, hpart]
    refine ⟨rfl, ?_⟩
    unfold fractionText
    rw [dropTrailingZeros_replicate]

/-- **The text of a real with a bounded number of decimals**, by its digits around the point. -/
theorem toList_toFixedText : (x.toFixedText decimals).toList
    = signChars x.negative ++ x.wholeDigits decimals
      ++ '.' :: fractionText (x.partDigits decimals) := by
  obtain ⟨hwhole, hpart⟩ := x.digits_min decimals (Nat.le_refl 1074)
  rw [← hwhole, ← hpart]
  unfold toFixedText
  generalize min decimals 1074 = places
  rw [String.toList_ofList]
  unfold signChars wholeDigits partDigits paddedDigits
  cases x.negative <;> rfl

theorem point_not_mem : '.' ∉ signChars x.negative ++ x.wholeDigits decimals := by
  intro hmem
  rcases List.mem_append.mp hmem with hsign | hdigit
  · unfold signChars at hsign
    split_ifs at hsign <;> simp at hsign
  · exact absurd (isDigit_of_mem_toDigits _ hdigit) (by decide)

end Binary64

/-- **Trimming in place leaves what was there before**, and what is added does not depend on it. -/
theorem trimBehind_paddedText (out : List Char) (x : Binary64) (decimals : Nat) :
    trimBehind out (x.paddedText decimals) = out ++ (x.toFixedText decimals).toList := by
  rw [x.toList_toFixedText, Binary64.paddedText]
  split_ifs with hzero
  -- without decimals there is no point to trim down to, and one is added
  · have hnone : x.partDigits decimals = [] := by
      rw [← List.length_eq_zero_iff, x.length_partDigits, hzero]
    rw [List.append_nil, trimBehind_whole out (x.point_not_mem decimals), hnone]
  · exact trimBehind_point out _ (x.isDigit_partDigits decimals)

/-! ### What is written -/

/-- The literal of a real behind a sign is a number with a fraction or an exponent. -/
theorem IsNumeral.spells {body : List Char} {v : ℚ} (h : IsNumeral body v) (negative : Bool) :
    Spells (.number (Utf8.encode (signChars negative ++ body)) .real)
      (Utf8.encode (signChars negative ++ body)) := by
  obtain ⟨p, hgrammatical, hnegative, hreal, hliteral, -⟩ := h negative
  have htext : p.literal = Utf8.encode (signChars negative ++ body) := by
    rw [hliteral, NumberParts.signBytes, hnegative]
    cases negative <;> rfl
  have hshape : p.shape = .real := if_pos hreal
  rw [← htext, ← hshape]
  exact .number hgrammatical

namespace Binary64

variable (x : Binary64) (decimals : Nat)

theorem pointValue_digits :
    pointValue (x.wholeDigits decimals) (fractionText (x.partDigits decimals))
      = x.roundedTo decimals / 10 ^ decimals := by
  rw [pointValue_fractionText, wholeDigits, partDigits, pointValue_paddedDigits, Decimal.value,
    zpow_neg, zpow_natCast, div_eq_mul_inv]

theorem spells_digits : Spells
    (.number (Utf8.encode (signChars x.negative ++ (x.wholeDigits decimals
      ++ '.' :: fractionText (x.partDigits decimals)))) .real)
    (Utf8.encode (signChars x.negative ++ (x.wholeDigits decimals
      ++ '.' :: fractionText (x.partDigits decimals)))) :=
  (isNumeral_point (isWhole_toDigits _) (fractionText_ne_nil _)
    (isDigit_fractionText (x.isDigit_partDigits decimals))).spells x.negative

end Binary64

/-- A finite real adds its text behind whatever stands there. -/
theorem TextWriter.call_real {w : TextWriter} {x : Binary64} (hx : x.isFinite = true)
    {e : Encoder} {before : List Char}
    (hbefore : w.encoder.beforeValue w.options "real" = .ok (e, before)) :
    w.call (.real x) = .ok { w with
      encoder := e
      text := String.ofList (w.text.toList ++ before ++ (w.options.realText x).toList) } := by
  have hadded : w.encoder.call w.options (.real x)
      = .ok (e, before ++ (w.options.realText x).toList) := by
    rw [Encoder.call, Call.steps, Encoder.steps_singleton, WriteOptions.realStep, if_pos hx,
      Encoder.step, hbefore]
    rfl
  rw [TextWriter.call, hadded, List.append_assoc, String.ofList_append, String.ofList_toList]

/-- **A real with a bounded number of decimals is written as a trimmed number.**  A writer trims the
decimals where they stand, at the end of all that was written; this leaves what was there before,
and adds a sign, digits before a point and at least one behind it, which are the rounded real.  All
of it is one number with a fraction. -/
theorem WriteOptions.fixed_text {x : Binary64} (hx : x.isFinite = true) {o : WriteOptions}
    {decimals : Nat} (ho : o.maxDecimals? = some decimals) : ∃ whole part : List Char,
      let text := signChars x.negative ++ (whole ++ '.' :: part)
      (∀ (w : TextWriter) (e : Encoder) (before : List Char), w.options = o →
        w.encoder.beforeValue o "real" = .ok (e, before) → w.call (.real x) = .ok { w with
          encoder := e
          text := String.ofList
            (trimBehind (w.text.toList ++ before) (x.paddedText decimals)) }) ∧
      (∀ out, trimBehind out (x.paddedText decimals) = out ++ text) ∧
      IsWhole whole ∧ IsTrimmed decimals part ∧
      IsRounded decimals x.value (Binary64.signOf x.negative * pointValue whole part) ∧
      ∀ rest, (∀ b ∈ rest.head?, continuesNumber b = false) →
        scanToken true (Utf8.encode text ++ rest)
          = .token (.number (Utf8.encode text) .real) 0 (Utf8.encode text).length := by
  refine ⟨x.wholeDigits decimals, fractionText (x.partDigits decimals), ?_, ?_, isWhole_toDigits _,
    isTrimmed_fractionText _ (x.isDigit_partDigits decimals) (x.length_partDigits decimals).le, ?_,
    ?_⟩
  · rintro w e before rfl hbefore
    rw [TextWriter.call_real hx hbefore, trimBehind_paddedText, realText, ho]
  · intro out
    rw [trimBehind_paddedText, x.toList_toFixedText, List.append_assoc]
  · rw [x.pointValue_digits]
    exact x.isRounded_roundedTo decimals
  · intro rest hrest
    have hblanks : ∀ b ∈ ([] : List UInt8), isBlankByte b = true := nofun
    exact (x.spells_digits decimals).scanToken hblanks fun _ => hrest

/-- Behind a point and behind zeros, `2.5` without decimals is `2.0`: of the two nearest numbers
the even one. -/
theorem WriteOptions.fixed_text_half :
    let x : Binary64 := ⟨0x4004000000000000⟩
    let o : WriteOptions := { maxDecimals? := some 0 }
    x.isFinite = true ∧ o.maxDecimals? = some 0 ∧
      trimBehind ['1', '0', '.', '0', '0'] (x.paddedText 0)
        = ['1', '0', '.', '0', '0', '2', '.', '0'] ∧
      IsRounded 0 x.value 2 ∧
      scanToken true (Utf8.encode ['2', '.', '0'])
        = .token (.number (Utf8.encode ['2', '.', '0']) .real) 0 3 := by
  intro x o
  have hx : x.isFinite = true := by decide
  have ho : o.maxDecimals? = some 0 := rfl
  obtain ⟨whole, part, -, htrim, -, -, hrounded, hscan⟩ := WriteOptions.fixed_text hx ho
  have hempty : trimBehind [] (x.paddedText 0) = ['2', '.', '0'] := by decide +kernel
  have htext : signChars x.negative ++ (whole ++ '.' :: part) = ['2', '.', '0'] :=
    (htrim []).symm.trans hempty
  have hvalue : Binary64.signOf x.negative * pointValue whole part = 2 := by
    have hdigits : whole = ['2'] ∧ part = ['0'] := by
      have hsign : signChars x.negative = [] := by decide
      rw [hsign, List.nil_append] at htext
      rcases whole with _ | ⟨a, _ | ⟨b, _ | ⟨c, whole⟩⟩⟩ <;> simp_all
    rw [hdigits.1, hdigits.2, pointValue]
    decide +kernel
  rw [htext] at htrim hscan
  rw [hvalue] at hrounded
  have hnumber := hscan [] nofun
  rw [List.append_nil] at hnumber
  exact ⟨hx, ho, htrim _, hrounded, hnumber⟩

end Columnar
