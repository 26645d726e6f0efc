import Columnar.Json.Grammar
import Columnar.Proofs.Json.Joined
import Columnar.Proofs.Json.Number

/-!
# Runs that look like numbers

A number is looked for in two steps: first the longest run of bytes of its shape is taken, in which
every group of digits may be missing, and only then the run is held against the grammar.  Where the
run breaks the grammar, the place that is reported is the first one at which it does so: the bytes
before it are the start of a number, and with the byte at that place they are no longer.

## Main definitions

* `IsNumber`, `BeginsNumber` — the numbers of the grammar, and what they start with.
* `BreaksAt` — the first place at which bytes break the grammar.
* `NumberParts.IsShaped`, `IsLongestRun` — the shape of a number, and the longest run of it.
* `NumberParts.IsReadAs` — what a literal stands for, from its value.

## Main results

* `isLongestRun_splitNumber` — the parts that are split off are the longest run.
* `breaksAt_of_flaw?` — **a flaw is the first place at which the bytes break the grammar.**
* `scanToken_longestRun` — **the longest run is a token just if it is a number**, and then it is
  read as the number it denotes.
-/

namespace Columnar

/-! ### The grammar as a language -/

/-- A number of the grammar. -/
def IsNumber (text : List UInt8) : Prop := ∃ p : NumberParts, p.IsGrammatical ∧ p.literal = text

/-- The start of some number, if not the whole of it. -/
def BeginsNumber (text : List UInt8) : Prop := ∃ more, IsNumber (text ++ more)

/-- The first place at which bytes break the grammar of numbers.  The bytes before it are the start
of a number, and either the byte there goes on with none, or there is no such byte although the
number is not complete. -/
structure BreaksAt (bytes : List UInt8) (place : Nat) : Prop where
  le_length : place ≤ bytes.length
  begins : BeginsNumber (bytes.take place)
  breaks : place < bytes.length → ¬ BeginsNumber (bytes.take (place + 1))
  ends : place = bytes.length → ¬ IsNumber bytes

theorem NumberParts.IsGrammatical.isNumber {p : NumberParts} (h : p.IsGrammatical) :
    IsNumber p.literal := ⟨p, h, rfl⟩

theorem IsNumber.begins {text : List UInt8} (h : IsNumber text) : BeginsNumber text :=
  ⟨[], by rwa [List.append_nil]⟩

theorem BeginsNumber.take {text : List UInt8} (h : BeginsNumber text) (n : Nat) :
    BeginsNumber (text.take n) := by
  obtain ⟨more, hmore⟩ := h
  exact ⟨text.drop n ++ more, by rwa [← List.append_assoc, List.take_append_drop]⟩

/-- Bytes break the grammar at one place only. -/
theorem BreaksAt.unique {bytes : List UInt8} {m n : Nat} (hm : BreaksAt bytes m)
    (hn : BreaksAt bytes n) : m = n := by
  have hle : ∀ {i j : Nat}, BreaksAt bytes i → BreaksAt bytes j → ¬ i < j := by
    intro i j hi hj hlt
    refine hi.breaks (Nat.lt_of_lt_of_le hlt hj.le_length) ?_
    have htake := hj.begins.take (i + 1)
    rwa [List.take_take, Nat.min_eq_left hlt] at htake
  exact Nat.le_antisymm (Nat.not_lt.mp (hle hn hm)) (Nat.not_lt.mp (hle hm hn))

/-- Numbers are split without a flaw. -/
theorem IsNumber.flaw? {text : List UInt8} (h : IsNumber text) :
    (splitNumber text).flaw? = none := by
  obtain ⟨p, hp, rfl⟩ := h
  have hsplit : splitNumber (p.literal ++ []) = _ := hp.splitNumber_eq nofun
  rw [List.append_nil] at hsplit
  rw [hsplit]
  exact hp.flaw? []

/-! ### The longest run -/

/-- The longest run at the front of some bytes that has the shape of a number. -/
structure IsLongestRun (run bytes : List UInt8) : Prop where
  shaped : ∃ p : NumberParts, p.IsShaped ∧ p.literal = run
  front : run <+: bytes
  longest : ∀ p : NumberParts, p.IsShaped → p.literal <+: bytes → p.literal.length ≤ run.length

/-- The bytes of a sign. -/
def signText (negative : Bool) : List UInt8 := if negative then [0x2d] else []

/-- The sign that is split off stands before the other parts. -/
theorem splitNumber_sign {negative : Bool} {unsigned : List UInt8}
    (h : negative = false → unsigned.head? ≠ some 0x2d) :
    splitNumber (signText negative ++ unsigned) = splitUnsigned negative unsigned := by
  cases negative with
  | true => exact splitNumber_minus unsigned
  | false => exact splitNumber_of_head? (h rfl)

namespace NumberParts.IsShaped

variable {p : NumberParts}

/-- The parts before an exponent are split off whole. -/
theorem splitUnsigned_append (h : p.IsShaped) (negative : Bool) {tail : List UInt8}
    (htail : ∀ b ∈ tail.head?, isDigitByte b = false ∧ b ≠ 0x2e) :
    splitUnsigned negative (p.whole ++ (p.fractionBytes ++ tail))
      = ⟨negative, p.whole, p.fraction, (splitExponent tail).1, (splitExponent tail).2⟩ := by
  have hwhole := h.splitDigitBytes_whole (p.head?_fractionBytes fun b hb => (htail b hb).1)
  simp only [splitUnsigned, hwhole, h.splitFraction_fractionBytes htail]

theorem splitExponent_exponentBytes (h : p.IsShaped) :
    splitExponent p.exponentBytes = (p.exponent, []) := by
  unfold exponentBytes
  cases he : p.exponent with
  | none => rfl
  | some e =>
    obtain ⟨mark, ds⟩ := e
    have hds : ∀ b ∈ ds, isDigitByte b = true := h.exponent _ he
    have hsplit := splitDigitBytes_digits hds []
    rw [List.append_nil] at hsplit
    show splitExponent (mark ++ ds) = _
    rw [splitExponent_mark (h.mark _ he), hsplit]
    · show (some (mark, ds ++ []), []) = (some (mark, ds), [])
      rw [List.append_nil]
    · -- a digit is no sign
      intro _ b hb
      have hdigit := hds b (List.mem_of_mem_head? hb)
      constructor <;> (rintro rfl; cases hdigit)

/-- Behind the sign there is no other one. -/
theorem head?_unsigned_ne (h : p.IsShaped) :
    (p.whole ++ (p.fractionBytes ++ p.exponentBytes)).head? ≠ some 0x2d := by
  intro hhead
  cases hw : p.whole with
  | cons b ds =>
    rw [hw] at hhead
    cases hhead
    exact Bool.noConfusion (h.whole 0x2d (by rw [hw]; exact List.mem_cons_self))
  | nil =>
    rw [hw, List.nil_append, fractionBytes] at hhead
    cases hf : p.fraction with
    | some ds => cases hf ▸ hhead
    | none =>
      rw [hf, List.nil_append, exponentBytes] at hhead
      cases he : p.exponent with
      | none => cases he ▸ hhead
      | some e =>
        rw [he] at hhead
        have hmark := h.mark e he
        simp only [exponentMarks, List.mem_cons, List.not_mem_nil, or_false] at hmark
        obtain ⟨mark, ds⟩ := e
        rcases hmark with rfl | rfl | rfl | rfl | rfl | rfl <;> cases hhead

/-- A minus sign is the first byte. -/
theorem negative_iff (h : p.IsShaped) : p.negative = true ↔ p.literal.head? = some 0x2d := by
  rw [literal, List.append_assoc, List.append_assoc, signBytes]
  cases p.negative with
  | true => simp
  | false => simpa using h.head?_unsigned_ne

/-- A run of the shape of a number is split into its parts. -/
theorem splitNumber_literal (h : p.IsShaped) : splitNumber p.literal = { p with rest := [] } := by
  have hends : ∀ b ∈ p.exponentBytes.head?, isDigitByte b = false ∧ b ≠ 0x2e := by
    cases he : p.exponent with
    | some e =>
      have := h.head?_exponentBytes he []
      rwa [List.append_nil] at this
    | none =>
      rw [exponentBytes, he]
      intro b hb
      cases hb
  have hsplit := @splitNumber_sign p.negative _ fun _ => h.head?_unsigned_ne
  rw [h.splitUnsigned_append p.negative hends, h.splitExponent_exponentBytes] at hsplit
  rw [literal, List.append_assoc, List.append_assoc]
  exact hsplit

end NumberParts.IsShaped

/-- **The parts that are split off are the longest run.** -/
theorem isLongestRun_splitNumber (bytes : List UInt8) :
    IsLongestRun (splitNumber bytes).literal bytes := by
  refine ⟨⟨_, isShaped_splitNumber bytes, rfl⟩, ⟨_, literal_append_rest bytes⟩, ?_⟩
  rintro p hp ⟨more, rfl⟩
  have hle := length_rest_append_le (congrArg NumberParts.rest hp.splitNumber_literal) more
  have hlen := congrArg List.length (literal_append_rest (p.literal ++ more))
  simp only [List.length_append] at hlen
  omega

/-- There is only one longest run. -/
theorem IsLongestRun.eq_splitNumber {run bytes : List UInt8} (h : IsLongestRun run bytes) :
    run = (splitNumber bytes).literal := by
  obtain ⟨p, hp, rfl⟩ := h.shaped
  have hsplit := isLongestRun_splitNumber bytes
  have hlen := Nat.le_antisymm (hsplit.longest p hp h.front)
    (h.longest _ (isShaped_splitNumber bytes) hsplit.front)
  exact (List.prefix_of_prefix_length_le h.front hsplit.front (Nat.le_of_eq hlen)).eq_of_length hlen

/-! ### Flaws -/

/-- What starts a number of the grammar. -/
theorem NumberParts.IsGrammatical.begins {p : NumberParts} (h : p.IsGrammatical)
    {text : List UInt8} (htext : text <+: p.literal) : BeginsNumber text := by
  obtain ⟨more, hmore⟩ := htext
  exact ⟨more, p, h, hmore.symm⟩

/-- Bytes behind a sign that break the grammar behind their front: the front goes on as a number,
and has a flaw whatever comes after the byte that stands there. -/
structure BreaksBehind (negative : Bool) (front unsigned : List UInt8) : Prop where
  isPrefix : front <+: unsigned
  begins : BeginsNumber (signText negative ++ front)
  flaw : ∀ b ∈ (unsigned.drop front.length).head?, ∀ more,
    (splitUnsigned negative (front ++ b :: more)).flaw? ≠ none

/-- Behind the sign that is split off, bytes break where the whole does. -/
theorem BreaksBehind.breaksAt {negative : Bool} {front unsigned : List UInt8}
    (h : BreaksBehind negative front unsigned)
    (hsign : negative = false → unsigned.head? ≠ some 0x2d)
    (hflaw : (splitUnsigned negative unsigned).flaw? ≠ none) :
    BreaksAt (signText negative ++ unsigned) ((signText negative).length + front.length) := by
  obtain ⟨rest, rfl⟩ := h.isPrefix
  refine ⟨by simp, ?_, fun hlt hbegins => ?_, fun _ hnumber => ?_⟩
  · rw [← List.append_assoc, List.take_left' (by simp)]
    exact h.begins
  · cases rest with
    | nil => simp at hlt
    | cons b rest =>
      obtain ⟨more, hmore⟩ := hbegins
      have hcons : signText negative ++ (front ++ b :: rest)
          = signText negative ++ (front ++ [b]) ++ rest := by simp
      have hhead : negative = false → (front ++ b :: more).head? ≠ some 0x2d := by
        intro hn
        have := hsign hn
        cases front <;> exact this
      rw [hcons, List.take_left' (by simp; omega), List.append_assoc, List.append_assoc,
        List.singleton_append] at hmore
      have hnone := hmore.flaw?
      rw [splitNumber_sign hhead] at hnone
      exact h.flaw b (by simp) more hnone
  · have hnone := hnumber.flaw?
    rw [splitNumber_sign hsign] at hnone
    exact hflaw hnone

section

variable {negative : Bool} {rest : List UInt8}

/-- Digits are missing before the point. -/
theorem breaksBehind_sign (h : ∀ b ∈ rest.head?, isDigitByte b = false) :
    BreaksBehind negative [] rest := by
  refine ⟨List.nil_prefix, ?_, fun b hb more hnone => ?_⟩
  · have hzero : NumberParts.IsGrammatical ⟨negative, [0x30], none, none, []⟩ :=
      ⟨by simp, by simp [isDigitByte], fun _ => rfl, nofun, nofun, nofun, nofun, nofun⟩
    exact hzero.begins ⟨[0x30], by cases negative <;> rfl⟩
  · have hsplit : splitDigitBytes (b :: more) = ([], b :: more) :=
      splitDigitBytes_of_head? fun _ hb' => by cases hb'; exact h b hb
    exact (NumberParts.flaw?_eq_none_iff.mp hnone).1 (congrArg Prod.fst hsplit)

/-- A zero is followed by a digit. -/
theorem breaksBehind_zero {d : UInt8} (hd : isDigitByte d = true) :
    BreaksBehind negative [0x30] (0x30 :: d :: rest) := by
  refine ⟨⟨d :: rest, rfl⟩, ?_, fun b hb more hnone => ?_⟩
  · have hzero : NumberParts.IsGrammatical ⟨negative, [0x30], none, none, []⟩ :=
      ⟨by simp, by simp [isDigitByte], fun _ => rfl, nofun, nofun, nofun, nofun, nofun⟩
    exact hzero.begins ⟨[], by cases negative <;> rfl⟩
  · cases hb
    have hsplit : (splitDigitBytes ([0x30, d] ++ more)).1 = [0x30, d] ++ (splitDigitBytes more).1 :=
      congrArg Prod.fst (splitDigitBytes_digits (by simpa [isDigitByte] using hd) more)
    have hwhole : (splitDigitBytes ([0x30, d] ++ more)).1 = [0x30] :=
      (NumberParts.flaw?_eq_none_iff.mp hnone).2.1 (congrArg List.head? hsplit)
    rw [hsplit] at hwhole
    cases hwhole

/-- Digits are missing behind the point. -/
theorem breaksBehind_point {ds : List UInt8} (hne : ds ≠ [])
    (hds : ∀ b ∈ ds, isDigitByte b = true) (hzero : ds.head? = some 0x30 → ds = [0x30])
    (h : ∀ b ∈ rest.head?, isDigitByte b = false) :
    BreaksBehind negative (ds ++ [0x2e]) (ds ++ 0x2e :: rest) := by
  refine ⟨⟨rest, by simp⟩, ?_, fun b hb more hnone => ?_⟩
  · have hnumber : NumberParts.IsGrammatical ⟨negative, ds, some [0x30], none, []⟩ := by
      refine ⟨hne, hds, hzero, by simp, ?_, nofun, nofun, nofun⟩
      rintro _ ⟨⟩
      simp [isDigitByte]
    refine hnumber.begins ⟨[0x30], ?_⟩
    cases negative <;> simp [NumberParts.literal, NumberParts.signBytes, signText,
      NumberParts.fractionBytes, NumberParts.exponentBytes]
  · have hb : isDigitByte b = false := h b (by simpa using hb)
    have hwhole : splitDigitBytes (ds ++ 0x2e :: b :: more) = (ds, 0x2e :: b :: more) := by
      rw [splitDigitBytes_digits hds, splitDigitBytes_of_head?, List.append_nil]
      rintro _ ⟨⟩
      rfl
    have hfraction : (splitFraction (splitDigitBytes (ds ++ 0x2e :: b :: more)).2).1 = some [] := by
      rw [hwhole, splitFraction_point, splitDigitBytes_of_head?]
      rintro _ ⟨⟩
      exact hb
    rw [List.append_assoc] at hnone
    exact (NumberParts.flaw?_eq_none_iff.mp hnone).2.2.1 hfraction

/-- Digits are missing behind the mark of the exponent. -/
theorem breaksBehind_mark {p : NumberParts} {mark : List UInt8} (hp : p.IsShaped)
    (hne : p.whole ≠ []) (hzero : p.whole.head? = some 0x30 → p.whole = [0x30])
    (hf : p.fraction ≠ some []) (hmark : mark ∈ exponentMarks)
    (hsign : mark.length = 1 → ∀ b ∈ rest.head?, b ≠ 0x2b ∧ b ≠ 0x2d)
    (h : ∀ b ∈ rest.head?, isDigitByte b = false) :
    BreaksBehind negative (p.whole ++ (p.fractionBytes ++ mark))
      (p.whole ++ (p.fractionBytes ++ (mark ++ rest))) := by
  refine ⟨⟨rest, by simp⟩, ?_, fun b hb more hnone => ?_⟩
  · have hnumber : NumberParts.IsGrammatical
        ⟨negative, p.whole, p.fraction, some (mark, [0x30]), []⟩ := by
      refine ⟨hne, hp.whole, hzero, hf, hp.fraction, ?_, ?_, ?_⟩
      all_goals
        rintro _ ⟨⟩
      · exact hmark
      · simp
      · simp [isDigitByte]
    refine hnumber.begins ⟨[0x30], ?_⟩
    cases negative <;> simp [NumberParts.literal, NumberParts.signBytes, signText,
      NumberParts.fractionBytes, NumberParts.exponentBytes]
  · have hb : b ∈ rest.head? := by simpa using hb
    have hshaped : NumberParts.IsShaped ⟨negative, p.whole, p.fraction, some (mark, []), []⟩ := by
      refine ⟨hp.whole, hp.fraction, ?_, ?_⟩
      all_goals
        rintro _ ⟨⟩
      · exact hmark
      · simp
    have hparts :=
      hshaped.splitUnsigned_append negative (hshaped.head?_exponentBytes rfl (b :: more))
    have hexponent : splitExponent (mark ++ b :: more) = (some (mark, []), b :: more) := by
      rw [splitExponent_mark hmark, splitDigitBytes_of_head?]
      · rintro _ ⟨⟩
        exact h b hb
      · rintro hlen _ ⟨⟩
        exact hsign hlen b hb
    have hbytes : p.whole ++ (p.fractionBytes ++ mark) ++ b :: more
        = p.whole ++ (p.fractionBytes ++ (mark ++ [] ++ b :: more)) := by simp
    refine (NumberParts.flaw?_eq_none_iff.mp hnone).2.2.2 (mark, []) ?_ rfl
    rw [hbytes]
    refine (congrArg NumberParts.exponent hparts).trans ?_
    show (splitExponent (mark ++ [] ++ b :: more)).1 = _
    rw [List.append_nil, hexponent]

end

/-- Where no digits are split off, none are there. -/
theorem isDigitByte_of_splitDigitBytes_nil {bytes : List UInt8}
    (h : (splitDigitBytes bytes).1 = []) : ∀ b ∈ bytes.head?, isDigitByte b = false := by
  rintro b hb
  obtain ⟨rest, rfl⟩ := List.head?_eq_some_iff.mp hb
  simpa [splitDigitBytes, List.takeWhile_cons] using h

/-- The bytes of a fraction without digits. -/
theorem exists_of_splitFraction_nil {bytes : List UInt8} (h : (splitFraction bytes).1 = some []) :
    ∃ rest, bytes = 0x2e :: rest ∧ ∀ b ∈ rest.head?, isDigitByte b = false := by
  by_cases hpoint : bytes.head? = some 0x2e
  · obtain ⟨rest, rfl⟩ := List.head?_eq_some_iff.mp hpoint
    exact ⟨rest, rfl, isDigitByte_of_splitDigitBytes_nil (Option.some.inj h)⟩
  · rw [splitFraction_of_head? hpoint] at h
    cases h

/-- The bytes of an exponent without digits. -/
theorem exists_of_splitExponent_nil {bytes mark : List UInt8}
    (h : (splitExponent bytes).1 = some (mark, [])) : ∃ rest, bytes = mark ++ rest ∧
      mark ∈ exponentMarks ∧ (mark.length = 1 → ∀ b ∈ rest.head?, b ≠ 0x2b ∧ b ≠ 0x2d) ∧
      ∀ b ∈ rest.head?, isDigitByte b = false := by
  by_cases hmark : ∀ b ∈ bytes.head?, isExponentByte b = false
  · rw [splitExponent_of_head? hmark] at h
    cases h
  · obtain ⟨mark', hmem, rest, rfl, hsign⟩ := exists_exponentMark hmark
    rw [splitExponent_mark hmem hsign, Option.some.injEq, Prod.mk.injEq] at h
    obtain ⟨rfl, hdigits⟩ := h
    exact ⟨rest, rfl, hmem, hsign, isDigitByte_of_splitDigitBytes_nil hdigits⟩

/-- A zero before other digits. -/
theorem exists_of_zeroBefore {ds : List UInt8} (h : ds.head? = some 0x30 ∧ 1 < ds.length) :
    ∃ d rest, ds = [0x30, d] ++ rest := by
  obtain ⟨rest, rfl⟩ := List.head?_eq_some_iff.mp h.1
  cases rest with
  | nil => exact absurd h.2 (by simp)
  | cons d rest => exact ⟨d, rest, rfl⟩

/-- The front behind which the parts with a flaw break. -/
theorem exists_breaksBehind {negative : Bool} {unsigned : List UInt8} {place : Nat}
    (hshaped : (splitUnsigned negative unsigned).IsShaped)
    (h : (splitUnsigned negative unsigned).flaw? = some place) :
    ∃ front, BreaksBehind negative front unsigned ∧
      place = (signText negative).length + front.length := by
  have hbytes := splitDigitBytes_append_rest unsigned
  unfold NumberParts.flaw? at h
  split at h
  · next hwhole =>
    cases h
    exact ⟨[], breaksBehind_sign (isDigitByte_of_splitDigitBytes_nil hwhole), rfl⟩
  next hne =>
  split at h
  · next hzero =>
    cases h
    obtain ⟨d, ds, hwhole⟩ : ∃ d ds, (splitDigitBytes unsigned).1 = [0x30, d] ++ ds :=
      exists_of_zeroBefore hzero
    have hd : isDigitByte d = true :=
      @isDigitByte_of_mem_splitDigitBytes unsigned _ (by simp [hwhole])
    rw [hwhole, List.append_assoc] at hbytes
    exact ⟨[0x30], hbytes ▸ breaksBehind_zero hd, rfl⟩
  next hlead =>
  have hzero := NumberParts.not_zeroBefore_iff.mp hlead
  split at h
  · next hfraction =>
    cases h
    obtain ⟨rest, hafter, hrest⟩ := exists_of_splitFraction_nil hfraction
    rw [hafter] at hbytes
    have hbreaks : BreaksBehind negative _ _ :=
      breaksBehind_point hne hshaped.whole hzero hrest
    refine ⟨_, hbytes ▸ hbreaks, ?_⟩
    rw [List.length_append, ← Nat.add_assoc]
    rfl
  next hpoint =>
  split at h
  · next mark hexponent =>
    cases h
    obtain ⟨rest, hafter, hmark, hsign, hrest⟩ := exists_of_splitExponent_nil hexponent
    have hfraction : (splitUnsigned negative unsigned).fractionBytes
        ++ (splitFraction (splitDigitBytes unsigned).2).2 = (splitDigitBytes unsigned).2 :=
      NumberParts.fractionBytes_append rfl
    rw [← hfraction, hafter] at hbytes
    have hbreaks : BreaksBehind negative _ _ :=
      breaksBehind_mark hshaped hne hzero hpoint hmark hsign hrest
    refine ⟨_, hbytes ▸ hbreaks, ?_⟩
    rw [List.length_append, List.length_append, ← Nat.add_assoc, ← Nat.add_assoc]
    rfl
  · cases h

/-- **A flaw is the first place at which the bytes break the grammar.** -/
theorem breaksAt_of_flaw? {bytes : List UInt8} {place : Nat}
    (h : (splitNumber bytes).flaw? = some place) : BreaksAt bytes place := by
  obtain ⟨negative, unsigned, heq, hbytes, hsign⟩ := exists_splitNumber bytes
  have hshaped := isShaped_splitNumber bytes
  rw [heq] at h hshaped
  obtain ⟨front, hbreaks, rfl⟩ := exists_breaksBehind hshaped h
  rw [hbytes]
  refine hbreaks.breaksAt (fun hn => ?_) (by rw [h]; exact Option.some_ne_none _)
  subst hn
  rw [hbytes] at hsign
  exact hsign rfl

/-! ### What a literal stands for -/

namespace NumberParts

/-- A number without fraction and exponent. -/
def IsIntegral (p : NumberParts) : Prop := p.fraction = none ∧ p.exponent = none

/-- Whether 64 bits hold a value. -/
def IsSmall (p : NumberParts) : Prop := -2 ^ 63 ≤ p.value ∧ p.value < 2 ^ 63

/-- What a literal is to be read as: an integer of 64 bits exactly, and any other number as the
nearest real, in which an integer is told from the rest. -/
inductive IsReadAs (p : NumberParts) : Number → Prop
  /-- An integer that 64 bits hold. -/
  | int {n : Int64} (hp : p.IsIntegral) (hn : (n.toInt : ℚ) = p.value) : IsReadAs p (.int n)
  /-- An integer that they do not hold. -/
  | large {x : Binary64} (hp : p.IsIntegral) (hlarge : ¬ p.IsSmall) (hx : x.IsNearest p.value) :
      IsReadAs p (.large x)
  /-- A number with a fraction or an exponent. -/
  | real {x : Binary64} (hp : ¬ p.IsIntegral) (hx : x.IsNearest p.value) : IsReadAs p (.real x)

variable {p : NumberParts}

theorem isSome_eq_true_iff :
    (p.fraction.isSome || p.exponent.isSome) = true ↔ ¬ p.IsIntegral := by
  unfold IsIntegral
  cases p.fraction <;> cases p.exponent <;> simp

theorem shape_eq_real_iff : p.shape = .real ↔ ¬ p.IsIntegral := by
  rw [← isSome_eq_true_iff, shape]
  split_ifs with h <;> simp [h]

theorem shape_eq_signed_iff : p.shape = .signed ↔ p.IsIntegral ∧ p.negative = true := by
  have h := isSome_eq_true_iff (p := p)
  rw [shape]
  split_ifs <;> simp_all

theorem fitsInt64_iff (h : p.IsIntegral) : fitsInt64 p.integer = true ↔ p.IsSmall := by
  rw [IsSmall, value_eq_integer h.1 h.2, fitsInt64, decide_eq_true_eq]
  constructor
  · rintro ⟨hlow, hhigh⟩
    exact ⟨by exact_mod_cast hlow, by exact_mod_cast hhigh⟩
  · rintro ⟨hlow, hhigh⟩
    exact ⟨by exact_mod_cast hlow, by exact_mod_cast hhigh⟩

/-- What the parts are read as is what their value says. -/
theorem isReadAs_number (p : NumberParts) : p.IsReadAs p.number := by
  unfold number
  by_cases hp : p.IsIntegral
  · rw [if_neg (mt isSome_eq_true_iff.mp (not_not_intro hp))]
    split_ifs with hfits
    · refine .int hp ?_
      have hbounds := of_decide_eq_true hfits
      rw [value_eq_integer hp.1 hp.2, Int64.toInt_ofInt_of_le hbounds.1 hbounds.2]
    · exact .large hp (mt (fitsInt64_iff hp).mpr hfits) p.nearest_isNearest
  · rw [if_pos (isSome_eq_true_iff.mpr hp)]
    exact .real hp p.nearest_isNearest

end NumberParts

/-! ### The token and its number -/

namespace NumberParts

/-- An integer that 64 bits do not hold. -/
def IsOutOfRange (p : NumberParts) : Prop := p.IsIntegral ∧ ¬ p.IsSmall

/-- An integer that is read as one is in range. -/
theorem isSmall_of_toInt_eq {p : NumberParts} {n : Int64} (h : (n.toInt : ℚ) = p.value) :
    p.IsSmall := by
  rw [IsSmall, ← h]
  exact ⟨by exact_mod_cast n.le_toInt, by exact_mod_cast n.toInt_lt⟩

/-- **A number is out of range just if it is an integer that 64 bits do not hold**, and only where
that is an error; any other number is pushed. -/
theorem IsGrammatical.scalarPush {p : NumberParts} (h : p.IsGrammatical) (o : ReadOptions)
    (expected : Expected) (span : Span) :
    (o.integerOverflow = .error ∧ p.IsOutOfRange →
      o.scalarPush expected ⟨.number p.literal p.shape, span⟩
        = .error ⟨.numberOutOfRange (Utf8.lossy p.literal), span⟩) ∧
    (¬ (o.integerOverflow = .error ∧ p.IsOutOfRange) →
      ∃ push, o.scalarPush expected ⟨.number p.literal p.shape, span⟩ = .ok push) := by
  have hparse : Number.parse p.shape span.offset p.literal.length p.literal = .ok p.number := by
    rw [Number.parse, List.take_length, h.ofLiteral?]
  simp only [ReadOptions.scalarPush, hparse]
  have hread := p.isReadAs_number
  generalize p.number = n at hread
  cases hread with
  | @int n hp hn =>
    exact ⟨fun hout => absurd (isSmall_of_toInt_eq hn) hout.2.2, fun _ => ⟨.int n, rfl⟩⟩
  | @real x hp hx => exact ⟨fun hout => absurd hout.2.1 hp, fun _ => ⟨.real x, rfl⟩⟩
  | @large x hp hlarge hx =>
    -- only here the options matter
    cases hpolicy : o.integerOverflow with
    | error =>
      refine ⟨fun _ => ?_, fun hnot => absurd ⟨rfl, hp, hlarge⟩ hnot⟩
      simp only [ReadOptions.numberPush?, hpolicy]
    | promote =>
      refine ⟨fun hout => absurd hout.1 (by decide), fun _ => ⟨.real x, ?_⟩⟩
      simp only [ReadOptions.numberPush?, hpolicy]

end NumberParts

/-- What an error of a number says of the byte at its place. -/
def causeAt (bytes : List UInt8) (place : Nat) : ScanCause :=
  match bytes[place]? with
  | some b => .unexpectedChar (charOfByte b)
  | none => .unexpectedEof .number

theorem scanNumber_of_flaw? {bytes : List UInt8} {place : Nat}
    (h : (splitNumber bytes).flaw? = some place) :
    scanNumber true 0 bytes = .error 0 (causeAt bytes place) place 1 := by
  simp only [scanNumber, not_true_eq_false, and_false, if_false, h, causeAt, Nat.zero_add]
  cases bytes[place]? <;> rfl

theorem scanNumber_of_isGrammatical {bytes : List UInt8} (h : (splitNumber bytes).IsGrammatical) :
    scanNumber true 0 bytes = .token (.number (splitNumber bytes).literal (splitNumber bytes).shape)
      0 (splitNumber bytes).literal.length := by
  simp only [scanNumber, not_true_eq_false, and_false, if_false,
    (isGrammatical_splitNumber_iff bytes).mp h]

/-- What the token of a literal is: its place and shape, the number it is read as, and the options
under which that number is out of range. -/
structure NumberParts.IsFoundAs (p : NumberParts) (bytes : List UInt8) (start : Nat)
    (shape : NumberShape) (n : Number) : Prop where
  token : scanToken true bytes = .token (.number p.literal shape) 0 p.literal.length
  real_iff : shape = .real ↔ ¬ p.IsIntegral
  signed_iff : shape = .signed ↔ p.IsIntegral ∧ p.literal.head? = some 0x2d
  parse : Number.parse shape start p.literal.length bytes = .ok n
  read : p.IsReadAs n
  outOfRange : ∀ (o : ReadOptions) (expected : Expected) (span : Span),
    o.integerOverflow = .error ∧ p.IsOutOfRange →
      o.scalarPush expected ⟨.number p.literal shape, span⟩
        = .error ⟨.numberOutOfRange (Utf8.lossy p.literal), span⟩
  inRange : ∀ (o : ReadOptions) (expected : Expected) (span : Span),
    ¬ (o.integerOverflow = .error ∧ p.IsOutOfRange) →
      ∃ push, o.scalarPush expected ⟨.number p.literal shape, span⟩ = .ok push

theorem NumberParts.IsGrammatical.isFoundAs {bytes : List UInt8}
    (h : (splitNumber bytes).IsGrammatical)
    (hscan : scanToken true bytes = scanNumber true 0 bytes) (start : Nat) :
    (splitNumber bytes).IsFoundAs bytes start (splitNumber bytes).shape
      (splitNumber bytes).number := by
  have hsigned : (splitNumber bytes).negative = true
      ↔ (splitNumber bytes).literal.head? = some 0x2d :=
    h.isShaped.negative_iff
  have htake : bytes.take (splitNumber bytes).literal.length = (splitNumber bytes).literal :=
    (List.prefix_iff_eq_take.mp ⟨_, literal_append_rest bytes⟩).symm
  exact
    { token := hscan.trans (scanNumber_of_isGrammatical h)
      real_iff := shape_eq_real_iff
      signed_iff := by rw [← hsigned, shape_eq_signed_iff]
      parse := by rw [Number.parse, htake, h.ofLiteral?]
      read := isReadAs_number _
      outOfRange := fun o expected span => (h.scalarPush o expected span).1
      inRange := fun o expected span => (h.scalarPush o expected span).2 }

/-- A number is looked for where a byte starts one. -/
theorem scanToken_isNumberStart {b : UInt8} (h : isNumberStart b) (rest : List UInt8) :
    scanToken true (b :: rest) = scanNumber true 0 (b :: rest) := by
  have hblank := isBlankByte_of_isNumberStart h
  rw [scanToken, List.takeWhile_cons, List.dropWhile_cons, hblank]
  exact scanBody_number h true 0 rest

/-- The longest run is a number just if its parts follow the grammar. -/
theorem isNumber_literal_iff (bytes : List UInt8) :
    IsNumber (splitNumber bytes).literal ↔ (splitNumber bytes).IsGrammatical := by
  refine ⟨fun h => ?_, fun h => h.isNumber⟩
  have hnone := h.flaw?
  rw [(isShaped_splitNumber bytes).splitNumber_literal] at hnone
  -- what follows the run does not matter
  exact (isGrammatical_splitNumber_iff bytes).mpr hnone

/-- **The longest run is a token just if it is a number**, and then it is read as the number it
denotes; if it is none, the error is at the first place at which the grammar breaks. -/
theorem scanToken_longestRun {buffer : List UInt8} {start : Nat} {b : UInt8}
    (hb : buffer[start]? = some b) (hstart : isNumberStart b) :
    ∃ run, IsLongestRun run (buffer.drop start) ∧
      ((∃ shape, scanToken true (buffer.drop start)
        = .token (.number run shape) 0 run.length) ↔ IsNumber run) ∧
      (IsNumber run → ∃ (p : NumberParts) (shape : NumberShape) (n : Number),
        p.IsGrammatical ∧ p.literal = run ∧ p.IsFoundAs (buffer.drop start) start shape n) ∧
      (¬ IsNumber run → ∃ place, BreaksAt (buffer.drop start) place ∧
        scanToken true (buffer.drop start)
          = .error 0 (causeAt (buffer.drop start) place) place 1) := by
  obtain ⟨hlt, rfl⟩ := List.getElem?_eq_some_iff.mp hb
  have hscan := scanToken_isNumberStart hstart (buffer.drop (start + 1))
  rw [← List.drop_eq_getElem_cons hlt] at hscan
  generalize buffer.drop start = bytes at hscan
  refine ⟨(splitNumber bytes).literal, isLongestRun_splitNumber bytes, ⟨?_, ?_⟩, ?_, ?_⟩
  · rintro ⟨shape, htoken⟩
    obtain ⟨-, -, hp, -⟩ := exists_of_scanNumber (hscan.symm.trans htoken)
    exact hp.isNumber
  · intro hnumber
    have hp := (isNumber_literal_iff bytes).mp hnumber
    exact ⟨_, hscan.trans (scanNumber_of_isGrammatical hp)⟩
  · intro hnumber
    have hp := (isNumber_literal_iff bytes).mp hnumber
    exact ⟨_, _, _, hp, rfl, hp.isFoundAs hscan start⟩
  · intro hnot
    cases hflaw : (splitNumber bytes).flaw? with
    | none => exact absurd ((isGrammatical_splitNumber_iff bytes).mpr hflaw).isNumber hnot
    | some place =>
      exact ⟨place, breaksAt_of_flaw? hflaw, hscan.trans (scanNumber_of_flaw? hflaw)⟩

/-- The run `01.` in `[01.]` is no number: the grammar breaks at its second byte. -/
theorem scanToken_longestRun_leadingZero :
    ([0x5b, 0x30, 0x31, 0x2e, 0x5d] : List UInt8)[1]? = some 0x30 ∧ isNumberStart 0x30 ∧
    (splitNumber [0x30, 0x31, 0x2e, 0x5d]).literal = [0x30, 0x31, 0x2e] ∧
    ∃ run, IsLongestRun run [0x30, 0x31, 0x2e, 0x5d] ∧ ¬ IsNumber run ∧
      ∃ place, BreaksAt [0x30, 0x31, 0x2e, 0x5d] place ∧
        scanToken true [0x30, 0x31, 0x2e, 0x5d]
          = .error 0 (causeAt [0x30, 0x31, 0x2e, 0x5d] place) place 1 := by
  obtain ⟨run, hrun, htoken, -, herror⟩ :=
    @scanToken_longestRun [0x5b, 0x30, 0x31, 0x2e, 0x5d] 1 0x30 rfl (.inr rfl)
  have hnot : ¬ IsNumber run := by
    rw [hrun.eq_splitNumber, isNumber_literal_iff]
    exact fun h => absurd ((isGrammatical_splitNumber_iff _).mp h) (by decide)
  exact ⟨rfl, .inr rfl, by decide, run, hrun, hnot, herror hnot⟩

end Columnar
