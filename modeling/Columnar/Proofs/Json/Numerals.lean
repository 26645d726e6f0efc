import Columnar.Json.Call
import Columnar.Proofs.Json.Number
import Columnar.Proofs.Shortest
import Columnar.Proofs.Utf8

/-!
# Numbers as they are written

The text of an integer is a literal of the grammar of numbers, and the number it stands for is the
one that was written.  Of a library that spells reals, all that is asked is that the text of a
finite real is a literal with a point or an exponent, and that it is read back as that real.  The
shortest texts are such a library: the digits are laid out in one of four ways, each of which is a
literal of the value of the decimal.

## Main definitions

* `IsNumeral` — a text behind a sign is the literal of a real.
* `RealLibrary.IsDocumented` — a library spells reals as it is said to do.

## Main results

* `Decimal.isNumeral_layout` — the layout of a decimal has its value.
* `exists_literal_int` — **an integer that is written is read back.**
* `RealLibrary.isDocumented_shortest` — **the shortest texts are such a library.**
-/

namespace Columnar

/-! ### Digits as bytes -/

theorem exists_digitByte {c : Char} (h : c.isDigit = true) :
    ∃ b, String.utf8EncodeChar c = [b] ∧ isDigitByte b = true ∧ b.toNat = c.toNat := by
  have hbounds : 48 ≤ c.toNat ∧ c.toNat ≤ 57 := by
    simp only [Char.isDigit, Bool.and_eq_true, decide_eq_true_eq] at h
    exact ⟨h.1, h.2⟩
  have hbyte : (UInt8.ofNat c.toNat).toNat = c.toNat := Utf8.toNat_ofNat_of_lt (by omega)
  refine ⟨UInt8.ofNat c.toNat, Utf8.encodeChar_ascii (by omega), ?_, hbyte⟩
  simp only [isDigitByte, Bool.and_eq_true, decide_eq_true_eq, UInt8.le_iff_toNat_le, hbyte]
  exact hbounds

section

variable {cs : List Char}

theorem isDigitByte_encode (h : ∀ c ∈ cs, c.isDigit = true) :
    ∀ b ∈ Utf8.encode cs, isDigitByte b = true := by
  induction cs with
  | nil => simp
  | cons c cs ih =>
    obtain ⟨d, hd, hdigit, -⟩ := exists_digitByte (h c List.mem_cons_self)
    intro b hb
    rw [Utf8.encode_cons, hd] at hb
    rcases List.mem_cons.mp hb with rfl | hb
    · exact hdigit
    · exact ih (fun c hc => h c (List.mem_cons_of_mem _ hc)) b hb

theorem length_encode_digits (h : ∀ c ∈ cs, c.isDigit = true) :
    (Utf8.encode cs).length = cs.length := by
  induction cs with
  | nil => rfl
  | cons c cs ih =>
    obtain ⟨d, hd, -, -⟩ := exists_digitByte (h c List.mem_cons_self)
    rw [Utf8.encode_cons, hd, List.singleton_append, List.length_cons, List.length_cons,
      ih fun c hc => h c (List.mem_cons_of_mem _ hc)]

/-- Digits have the same value as characters and as bytes. -/
theorem digitsValue_encode (h : ∀ c ∈ cs, c.isDigit = true) (start : Nat) :
    digitsValue start (Utf8.encode cs) = Nat.ofDigitChars 10 cs start := by
  induction cs generalizing start with
  | nil => rfl
  | cons c cs ih =>
    obtain ⟨d, hd, -, hvalue⟩ := exists_digitByte (h c List.mem_cons_self)
    rw [Utf8.encode_cons, hd, List.singleton_append, digitsValue_cons, hvalue,
      ih fun c hc => h c (List.mem_cons_of_mem _ hc), Nat.ofDigitChars_cons]
    rfl

theorem head?_encode_digits (h : ∀ c ∈ cs, c.isDigit = true)
    (hz : (Utf8.encode cs).head? = some 0x30) : cs.head? = some '0' := by
  cases cs with
  | nil => cases hz
  | cons c cs =>
    obtain ⟨d, hd, -, hvalue⟩ := exists_digitByte (h c List.mem_cons_self)
    rw [Utf8.encode_cons, hd] at hz
    cases hz
    have hc : c = '0' := Char.toNat_inj.mp hvalue.symm
    rw [hc, List.head?_cons]

end

theorem isDigit_of_mem_toDigits {n : Nat} : ∀ c ∈ Nat.toDigits 10 n, c.isDigit = true :=
  fun _ hc => Nat.isDigit_of_mem_toDigits (by decide) (by decide) hc

theorem isDigit_of_mem_replicate {n : Nat} : ∀ c ∈ List.replicate n '0', c.isDigit = true := by
  intro c hc
  rw [List.eq_of_mem_replicate hc]
  rfl

theorem isDigit_of_mem_zero : ∀ c ∈ ['0'], c.isDigit = true := @isDigit_of_mem_replicate 1

/-- Only zero starts with a zero. -/
theorem eq_zero_of_head?_toDigits {n : Nat} (h : (Nat.toDigits 10 n).head? = some '0') :
    n = 0 := by
  induction n using Nat.strongRecOn with
  | _ n ih =>
    by_cases hlt : n < 10
    · rw [Nat.toDigits_of_lt_base hlt, List.head?_cons, Option.some.injEq] at h
      have hdigits : ∀ k < 10, Nat.digitChar k = '0' → k = 0 := by decide
      exact hdigits n hlt h
    · rw [Nat.toDigits_of_base_le (by decide) (by omega), List.head?_append_of_ne_nil] at h
      · have := ih (n / 10) (by omega) h
        omega
      · exact Nat.toDigits_ne_nil

/-! ### The literals of reals -/

/-- Digits that may stand before a point: some, of which only a single one may start with zero. -/
structure IsWhole (cs : List Char) : Prop where
  ne_nil : cs ≠ []
  digits : ∀ c ∈ cs, c.isDigit = true
  zero : cs.head? = some '0' → cs = ['0']

theorem isWhole_zero : IsWhole ['0'] := ⟨List.cons_ne_nil _ _, isDigit_of_mem_zero, fun _ => rfl⟩

theorem isWhole_toDigits (n : Nat) : IsWhole (Nat.toDigits 10 n) := by
  refine ⟨Nat.toDigits_ne_nil, isDigit_of_mem_toDigits, fun h => ?_⟩
  rw [eq_zero_of_head?_toDigits h]
  rfl

namespace IsWhole

variable {cs : List Char}

theorem encode_ne_nil (h : IsWhole cs) : Utf8.encode cs ≠ [] := by
  intro hnil
  have hlen := length_encode_digits h.digits
  rw [hnil] at hlen
  exact h.ne_nil (List.eq_nil_of_length_eq_zero hlen.symm)

theorem encode_zero (h : IsWhole cs) (hz : (Utf8.encode cs).head? = some 0x30) :
    Utf8.encode cs = [0x30] := by
  rw [h.zero (head?_encode_digits h.digits hz)]
  rfl

end IsWhole

/-- A text that, behind either sign, is the literal of a real with a value. -/
def IsNumeral (text : List Char) (v : ℚ) : Prop :=
  ∀ negative : Bool, ∃ p : NumberParts, p.IsGrammatical ∧ p.negative = negative ∧
    (p.fraction.isSome || p.exponent.isSome) = true ∧
    p.literal = p.signBytes ++ Utf8.encode text ∧ p.decimal.value = v

/-- Digits around a point. -/
theorem isNumeral_point {whole part : List Char} (hw : IsWhole whole) (hne : part ≠ [])
    (hp : ∀ c ∈ part, c.isDigit = true) :
    IsNumeral (whole ++ '.' :: part)
      (Nat.ofDigitChars 10 (whole ++ part) 0 * 10 ^ (-(part.length : Int))) := by
  intro negative
  have hlen := length_encode_digits hp
  have hdigits : ∀ c ∈ whole ++ part, c.isDigit = true :=
    fun c hc => (List.mem_append.mp hc).elim (hw.digits c) (hp c)
  refine ⟨⟨negative, Utf8.encode whole, some (Utf8.encode part), none, []⟩, ?_, rfl, rfl, ?_, ?_⟩
  · refine ⟨hw.encode_ne_nil, isDigitByte_encode hw.digits, hw.encode_zero, ?_, ?_, nofun, nofun,
      nofun⟩
    · intro hnil
      rw [Option.some.inj hnil] at hlen
      exact hne (List.eq_nil_of_length_eq_zero hlen.symm)
    · rintro ds ⟨⟩
      exact isDigitByte_encode hp
  · simp only [NumberParts.literal, NumberParts.fractionBytes, NumberParts.exponentBytes,
      Utf8.encode_append, Utf8.encode_cons, List.append_assoc, List.append_nil]
    rfl
  · simp only [NumberParts.decimal, Decimal.value, NumberParts.exponentValue, Option.getD_some,
      ← Utf8.encode_append, digitsValue_encode hdigits, hlen, zero_sub]

/-- The mark of an exponent. -/
def ExponentStyle.mark (style : ExponentStyle) (power : Int) : List UInt8 :=
  if power < 0 then [0x65, 0x2d] else if style.plusSign then [0x65, 0x2b] else [0x65]

theorem ExponentStyle.encode_chars (style : ExponentStyle) (power : Int) :
    Utf8.encode (style.chars power)
      = style.mark power ++ Utf8.encode (Nat.toDigits 10 power.natAbs) := by
  unfold chars mark
  split_ifs <;> rfl

theorem ExponentStyle.mark_mem (style : ExponentStyle) (power : Int) :
    style.mark power ∈ exponentMarks := by
  unfold mark
  split_ifs <;> decide

theorem ExponentStyle.signedInt_mark (style : ExponentStyle) (power : Int) :
    signedInt ((style.mark power).getLast? == some 0x2d) power.natAbs = power := by
  unfold mark
  split_ifs with hneg
  · exact (congrArg Neg.neg (Int.ofNat_natAbs_of_nonpos hneg.le)).trans (Int.neg_neg power)
  · exact Int.natAbs_of_nonneg (Int.not_lt.mp hneg)
  · exact Int.natAbs_of_nonneg (Int.not_lt.mp hneg)

/-- The digits behind a point; without digits, there is no point. -/
def fractionChars : List Char → List Char
  | [] => []
  | c :: cs => '.' :: c :: cs

/-- The fraction of these digits. -/
def fractionOf : List Char → Option (List UInt8)
  | [] => none
  | c :: cs => some (Utf8.encode (c :: cs))

section

variable {part : List Char}

theorem getD_fractionOf (part : List Char) : (fractionOf part).getD [] = Utf8.encode part := by
  cases part <;> rfl

theorem fractionOf_ne (hp : ∀ c ∈ part, c.isDigit = true) : fractionOf part ≠ some [] := by
  cases part with
  | nil => nofun
  | cons c cs =>
    intro hnil
    have hlen := length_encode_digits hp
    rw [Option.some.inj hnil] at hlen
    cases hlen

theorem isDigitByte_fractionOf (hp : ∀ c ∈ part, c.isDigit = true) :
    ∀ ds ∈ fractionOf part, ∀ b ∈ ds, isDigitByte b = true := by
  cases part with
  | nil => nofun
  | cons c cs =>
    rintro ds ⟨⟩
    exact isDigitByte_encode hp

theorem fractionBytes_fractionOf {p : NumberParts} (h : p.fraction = fractionOf part) :
    p.fractionBytes = Utf8.encode (fractionChars part) := by
  rw [NumberParts.fractionBytes, h]
  cases part <;> rfl

end

/-- A digit, others behind a point, and an exponent. -/
theorem isNumeral_exponent {c : Char} {part : List Char} (hc : c.isDigit = true)
    (hp : ∀ c ∈ part, c.isDigit = true) (style : ExponentStyle) (power : Int) :
    IsNumeral (c :: fractionChars part ++ style.chars power)
      (Nat.ofDigitChars 10 (c :: part) 0 * 10 ^ (power - part.length)) := by
  intro negative
  have hwhole : IsWhole [c] := ⟨by simp, by simpa using hc, by simp⟩
  have hdigits : ∀ d ∈ c :: part, d.isDigit = true := List.forall_mem_cons.mpr ⟨hc, hp⟩
  have hpower : digitsValue 0 (Utf8.encode (Nat.toDigits 10 power.natAbs)) = power.natAbs := by
    rw [digitsValue_encode isDigit_of_mem_toDigits, Nat.ofDigitChars_ten_toDigits]
  refine ⟨⟨negative, Utf8.encode [c], fractionOf part,
    some (style.mark power, Utf8.encode (Nat.toDigits 10 power.natAbs)), []⟩, ?_, rfl,
    Bool.or_true _, ?_, ?_⟩
  · refine ⟨hwhole.encode_ne_nil, isDigitByte_encode hwhole.digits, hwhole.encode_zero,
      fractionOf_ne hp, isDigitByte_fractionOf hp, ?_, ?_, ?_⟩
    · rintro e ⟨⟩
      exact style.mark_mem power
    · rintro e ⟨⟩
      exact (isWhole_toDigits _).encode_ne_nil
    · rintro e ⟨⟩
      exact isDigitByte_encode isDigit_of_mem_toDigits
  · have htext : Utf8.encode (c :: fractionChars part ++ style.chars power)
        = Utf8.encode [c]
          ++ (Utf8.encode (fractionChars part) ++ Utf8.encode (style.chars power)) := by
      simp
    rw [htext, style.encode_chars, NumberParts.literal, fractionBytes_fractionOf rfl,
      List.append_assoc, List.append_assoc]
    rfl
  · have hall : Utf8.encode [c] ++ Utf8.encode part = Utf8.encode (c :: part) := by simp
    simp only [NumberParts.decimal, Decimal.value, NumberParts.exponentValue, getD_fractionOf, hall,
      digitsValue_encode hdigits, hpower, style.signedInt_mark, length_encode_digits hp]

/-! ### The layout of a decimal -/

theorem isDigit_append {cs ds : List Char} (hc : ∀ c ∈ cs, c.isDigit = true)
    (hd : ∀ c ∈ ds, c.isDigit = true) : ∀ c ∈ cs ++ ds, c.isDigit = true :=
  fun c h => (List.mem_append.mp h).elim (hc c) (hd c)

/-- Digits of which the first is not zero may be cut anywhere behind it. -/
theorem isWhole_of_head? {cs : List Char} (hne : cs ≠ []) (hd : ∀ c ∈ cs, c.isDigit = true)
    (hz : cs.head? ≠ some '0') : IsWhole cs := ⟨hne, hd, fun h => absurd h hz⟩

section

variable {ds : List Char}

/-- Zeros stand between the digits and the point. -/
theorem isNumeral_zerosBeforePoint (hne : ds ≠ []) (hd : ∀ c ∈ ds, c.isDigit = true)
    (hz : ds.head? ≠ some '0') (n : Nat) :
    IsNumeral (ds ++ List.replicate n '0' ++ '.' :: ['0'])
      (Nat.ofDigitChars 10 ds 0 * 10 ^ (n : Int)) := by
  have hw : IsWhole (ds ++ List.replicate n '0') := by
    refine isWhole_of_head? (by simp [hne]) (isDigit_append hd isDigit_of_mem_replicate) ?_
    rwa [List.head?_append_of_ne_nil _ hne]
  have hnumeral := isNumeral_point hw (List.cons_ne_nil _ _) isDigit_of_mem_zero
  have hzeros : ds ++ List.replicate n '0' ++ ['0'] = ds ++ List.replicate (n + 1) '0' := by
    rw [List.append_assoc, ← List.replicate_succ']
  have hten (v : Nat) : ((10 ^ (n + 1) * v : Nat) : ℚ) * 10 ^ (-1 : Int) = v * 10 ^ (n : Int) := by
    rw [Nat.cast_mul, zpow_natCast, zpow_neg_one]
    push_cast
    ring
  rw [hzeros, Nat.ofDigitChars_append, Nat.ofDigitChars_replicate_zero] at hnumeral
  exact hten _ ▸ hnumeral

/-- The point stands among the digits. -/
theorem isNumeral_pointAmongDigits (hd : ∀ c ∈ ds, c.isDigit = true) (hz : ds.head? ≠ some '0')
    {n : Nat} (hn : n ≠ 0) (hlt : n < ds.length) :
    IsNumeral (ds.take n ++ '.' :: ds.drop n)
      (Nat.ofDigitChars 10 ds 0 * 10 ^ ((n : Int) - ds.length)) := by
  have hw : IsWhole (ds.take n) := by
    refine isWhole_of_head? ?_ (fun c hc => hd c (List.mem_of_mem_take hc)) ?_
    · exact List.ne_nil_of_length_pos (by rw [List.length_take]; omega)
    · rwa [List.head?_take, if_neg hn]
  have hnumeral : IsNumeral (ds.take n ++ '.' :: ds.drop n) _ :=
    isNumeral_point hw (by simpa using hlt) fun c hc => hd c (List.mem_of_mem_drop hc)
  have hplaces : -((ds.drop n).length : Int) = n - ds.length := by
    rw [List.length_drop]
    omega
  rwa [List.take_append_drop, hplaces] at hnumeral

/-- Zeros stand between the point and the digits. -/
theorem isNumeral_zerosBehindPoint (hne : ds ≠ []) (hd : ∀ c ∈ ds, c.isDigit = true) (n : Nat) :
    IsNumeral ('0' :: '.' :: (List.replicate n '0' ++ ds))
      (Nat.ofDigitChars 10 ds 0 * 10 ^ (-(n + ds.length : Int))) := by
  have hnumeral : IsNumeral (['0'] ++ '.' :: (List.replicate n '0' ++ ds)) _ :=
    isNumeral_point isWhole_zero (by simp [hne]) (isDigit_append isDigit_of_mem_replicate hd)
  have hplaces : ((List.replicate n '0' ++ ds).length : Int) = n + ds.length := by
    rw [List.length_append, List.length_replicate, Nat.cast_add]
  have hzeros : Nat.ofDigitChars 10 (['0'] ++ (List.replicate n '0' ++ ds)) 0
      = Nat.ofDigitChars 10 ds 0 := by
    rw [Nat.ofDigitChars_append, Nat.ofDigitChars_append, Nat.ofDigitChars_replicate_zero]
    rfl
  rwa [hzeros, hplaces] at hnumeral

end

/-- The layout of a decimal has its value. -/
theorem Decimal.isNumeral_layout (style : ExponentStyle) {d : Decimal} (h : d.digits ≠ 0) :
    IsNumeral (d.layout style) d.value := by
  obtain ⟨digits, exponent⟩ := d
  have hdigits := isDigit_of_mem_toDigits (n := digits)
  have hvalue := Nat.ofDigitChars_ten_toDigits (n := digits)
  have hne : Nat.toDigits 10 digits ≠ [] := Nat.toDigits_ne_nil
  have hzero : (Nat.toDigits 10 digits).head? ≠ some '0' :=
    fun hz => h (eq_zero_of_head?_toDigits hz)
  unfold layout value
  dsimp only
  generalize Nat.toDigits 10 digits = ds at *
  subst hvalue
  split_ifs with hint hpoint hsmall
  · obtain ⟨n, rfl⟩ := Int.eq_ofNat_of_zero_le hint.1
    exact isNumeral_zerosBeforePoint hne hdigits hzero n
  · obtain ⟨n, hn⟩ := Int.eq_ofNat_of_zero_le hpoint.1.le
    have hplaces : exponent = n - ds.length := by omega
    rw [hn, hplaces]
    exact isNumeral_pointAmongDigits hdigits hzero (by omega) (by omega)
  · obtain ⟨n, hn⟩ := Int.eq_ofNat_of_zero_le (by omega : 0 ≤ -((ds.length : Int) + exponent))
    have hplaces : exponent = -(n + ds.length : Int) := by omega
    rw [hn, hplaces]
    exact isNumeral_zerosBehindPoint hne hdigits n
  · cases ds with
    | nil => exact absurd rfl hne
    | cons c rest =>
      obtain ⟨hc, hrest⟩ := List.forall_mem_cons.mp hdigits
      have hnumeral := isNumeral_exponent hc hrest style (((c :: rest).length : Int) + exponent - 1)
      have hplaces : ((c :: rest).length : Int) + exponent - 1 - rest.length = exponent := by
        rw [List.length_cons]
        omega
      rw [hplaces] at hnumeral
      cases rest with
      | nil => exact hnumeral
      | cons c' rest => exact hnumeral

theorem isNumeral_zero : IsNumeral ['0', '.', '0'] 0 := by
  have h : IsNumeral (['0'] ++ '.' :: ['0']) _ :=
    isNumeral_point isWhole_zero (List.cons_ne_nil _ _) isDigit_of_mem_zero
  have hzero : Nat.ofDigitChars 10 (['0'] ++ ['0']) 0 = 0 := rfl
  rwa [hzero, Nat.cast_zero, zero_mul] at h

/-! ### Texts of numbers -/

/-- A sign as text. -/
theorem encode_sign (negative : Bool) (body : List Char) :
    Utf8.encode (if negative then '-' :: body else body)
      = (if negative then [0x2d] else []) ++ Utf8.encode body := by
  cases negative <;> rfl

/-- The text of a finite real has the value of a decimal that becomes the real again. -/
theorem exists_isNumeral_toText {x : Binary64} (h : x.isFinite = true) (style : ExponentStyle) :
    ∃ body, ∃ d : Decimal, IsNumeral body d.value ∧ d.toBinary64 x.negative = x ∧
      x.toText style = String.ofList (if x.negative then '-' :: body else body) := by
  cases hzero : x.isZero with
  | true =>
    have hmagnitude : x.magnitude = 0 := eq_of_beq hzero
    refine ⟨['0', '.', '0'], ⟨0, 0⟩, ?_, ?_, ?_⟩
    · rw [Decimal.value, Nat.cast_zero, zero_mul]
      exact isNumeral_zero
    · rw [Decimal.toBinary64_zero, ← hmagnitude, Binary64.ofMagnitude_eq]
    · simp only [Binary64.toText, hzero, if_true]
  | false =>
    have hdigits := Binary64.digits_ne_zero_of_readsBack (Binary64.readsBack_shortest h) hzero
    have hlayout := Decimal.isNumeral_layout style (Decimal.digits_dropZeros_ne_zero 400 hdigits)
    refine ⟨_, _, hlayout, Binary64.toBinary64_shortest h 400, ?_⟩
    simp only [Binary64.toText, hzero, Bool.false_eq_true, if_false]

/-- The literal of a decimal behind a sign stands for the nearest real. -/
theorem IsNumeral.exists_literal {body : List Char} {d : Decimal} (h : IsNumeral body d.value)
    (negative : Bool) : ∃ p : NumberParts, p.IsGrammatical ∧
      p.literal = Utf8.encodeString (String.ofList (if negative then '-' :: body else body)) ∧
      p.number = .real (d.toBinary64 negative) := by
  obtain ⟨p, hgrammatical, hnegative, hreal, hliteral, hvalue⟩ := h negative
  refine ⟨p, hgrammatical, ?_, ?_⟩
  · rw [hliteral, Utf8.encodeString, String.toList_ofList, encode_sign, NumberParts.signBytes,
      hnegative]
  · rw [NumberParts.number, if_pos hreal, NumberParts.nearest, hnegative,
      Decimal.toBinary64_congr _ hvalue]

/-! ### Libraries of reals -/

/-- Whether the parts of a number have a point or an exponent. -/
def NumberParts.isReal (p : NumberParts) : Bool := p.fraction.isSome || p.exponent.isSome

theorem NumberParts.number_of_isReal {p : NumberParts} (h : p.isReal = true) :
    p.number = .real p.nearest := if_pos h

theorem NumberParts.isReal_of_number {p : NumberParts} {x : Binary64} (h : p.number = .real x) :
    p.isReal = true := by
  unfold number at h
  split_ifs at h with hreal
  exact hreal

namespace RealLibrary

variable {lib : RealLibrary} {x : Binary64}

/-- A library spells a finite real as a number of JSON with a point or an exponent, and what is
read of its text is that real again. -/
structure IsDocumented (lib : RealLibrary) : Prop where
  spells {x : Binary64} (h : x.isFinite = true) :
    ∃ p : NumberParts, p.IsGrammatical ∧ p.isReal = true ∧
      p.literal = Utf8.encodeString (lib.text x)
  readsBack {x : Binary64} (h : x.isFinite = true) :
    readReal? (Utf8.encodeString (lib.text x)) = some x

/-- What such a library writes is a literal that stands for the real. -/
theorem IsDocumented.exists_literal (hlib : lib.IsDocumented) (h : x.isFinite = true) :
    ∃ p : NumberParts, p.IsGrammatical ∧ p.literal = Utf8.encodeString (lib.text x) ∧
      p.number = .real x := by
  obtain ⟨p, hgrammatical, hreal, hliteral⟩ := hlib.spells h
  have hread := hlib.readsBack h
  rw [← hliteral, hgrammatical.readReal?_literal, Option.some.injEq] at hread
  exact ⟨p, hgrammatical, hliteral, by rw [NumberParts.number_of_isReal hreal, hread]⟩

/-- **The shortest texts are such a library**, in every style. -/
theorem isDocumented_shortest (style : ExponentStyle) : (shortest style).IsDocumented := by
  have hliteral {x : Binary64} (h : x.isFinite = true) : ∃ p : NumberParts, p.IsGrammatical ∧
      p.literal = Utf8.encodeString (x.toText style) ∧ p.number = .real x := by
    obtain ⟨body, d, hbody, hd, htext⟩ := exists_isNumeral_toText h style
    obtain ⟨p, hgrammatical, hliteral, hnumber⟩ := hbody.exists_literal x.negative
    exact ⟨p, hgrammatical, by rw [hliteral, htext], by rw [hnumber, hd]⟩
  constructor
  · intro x h
    obtain ⟨p, hgrammatical, hp, hnumber⟩ := hliteral h
    exact ⟨p, hgrammatical, NumberParts.isReal_of_number hnumber, hp⟩
  · intro x h
    obtain ⟨p, hgrammatical, hp, hnumber⟩ := hliteral h
    have hnearest := NumberParts.number_of_isReal (NumberParts.isReal_of_number hnumber)
    rw [hnumber, Number.real.injEq] at hnearest
    rw [shortest, ← hp, hgrammatical.readReal?_literal, hnearest]

end RealLibrary

/-! ### Texts of integers -/

/-- The text of an integer: its digits, behind a sign if it is negative. -/
theorem toList_toString_int (z : Int) : (toString z).toList =
    if decide (z < 0) then '-' :: Nat.toDigits 10 z.natAbs else Nat.toDigits 10 z.natAbs := by
  rw [Int.toString_eq_repr]
  cases z with
  | ofNat m => exact Nat.toList_repr
  | negSucc m =>
    rw [Int.repr]
    simp

/-- The text of an integer starts with a digit or with a sign. -/
theorem toString_int_ne_ofList {c : Char} (hdigit : c.isDigit = false) (hsign : c ≠ '-') (z : Int)
    (cs : List Char) : toString z ≠ String.ofList (c :: cs) := by
  intro h
  have hchars := congrArg String.toList h
  rw [toList_toString_int, String.toList_ofList] at hchars
  split_ifs at hchars
  · exact hsign (List.cons.inj hchars).1.symm
  · have hmem := @isDigit_of_mem_toDigits z.natAbs c (hchars ▸ List.mem_cons_self)
    rw [hdigit] at hmem
    cases hmem

theorem natAbs_eq_of_toDigits {a b : Int}
    (h : Nat.toDigits 10 a.natAbs = Nat.toDigits 10 b.natAbs) : a.natAbs = b.natAbs := by
  have hvalue := congrArg (Nat.ofDigitChars 10 · 0) h
  simpa only [Nat.ofDigitChars_ten_toDigits] using hvalue

/-- No two integers have one text. -/
theorem toString_int_injective {a b : Int} (h : toString a = toString b) : a = b := by
  have hchars := congrArg String.toList h
  simp only [toList_toString_int, decide_eq_true_eq] at hchars
  split_ifs at hchars with ha hb hb
  · have := natAbs_eq_of_toDigits (List.cons.inj hchars).2
    omega
  · cases isDigit_of_mem_toDigits '-' (hchars ▸ List.mem_cons_self)
  · cases isDigit_of_mem_toDigits '-' (hchars ▸ List.mem_cons_self)
  · have := natAbs_eq_of_toDigits hchars
    omega

/-- **An integer that is written is read back.** -/
theorem exists_literal_int (n : Int64) :
    ∃ p : NumberParts, p.IsGrammatical ∧ p.literal = Utf8.encodeString (toString n.toInt) ∧
      p.number = .int n := by
  have hwhole := isWhole_toDigits n.toInt.natAbs
  have hinteger : signedInt (decide (n.toInt < 0)) n.toInt.natAbs = n.toInt := by
    unfold signedInt
    split_ifs with hneg
    · simp only [decide_eq_true_eq] at hneg
      omega
    · simp only [decide_eq_true_eq] at hneg
      omega
  refine ⟨⟨decide (n.toInt < 0), Utf8.encode (Nat.toDigits 10 n.toInt.natAbs), none, none, []⟩,
    ?_, ?_, ?_⟩
  · exact ⟨hwhole.encode_ne_nil, isDigitByte_encode hwhole.digits, hwhole.encode_zero, nofun, nofun,
      nofun, nofun, nofun⟩
  · rw [Utf8.encodeString, toList_toString_int, encode_sign]
    simp [NumberParts.literal, NumberParts.fractionBytes, NumberParts.exponentBytes,
      NumberParts.signBytes]
  · have hfits : fitsInt64 n.toInt = true := by
      have hle := n.le_toInt
      have hlt := n.toInt_lt
      simp only [fitsInt64, decide_eq_true_eq]
      omega
    simp only [NumberParts.number, NumberParts.integer, digitsValue_encode hwhole.digits,
      Nat.ofDigitChars_ten_toDigits, hinteger, hfits, Int64.ofInt_toInt]
    rfl

end Columnar
