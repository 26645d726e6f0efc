import Columnar.Document.Reading
import Columnar.Document.Text
import Columnar.Proofs.Json.Numerals
import Columnar.Proofs.Json.Quotation

/-!
# Scalars of documents are read back

A string is read up to its closing quote, whatever follows it.  A whole number is read up to the
first character that is no digit, so what follows it must not go on with the number: in the text
of a document that is a comma, a closing bracket or nothing.

## Main definitions

* `Document.Ends` — what follows a document in a text.
* `Document.FitsWord` — a whole number is read as one.

## Main results

* `Document.readString_flatMap_char` — **a string is read back.**
* `Document.readNumber_intChars` — **a whole number of 64 bits is read back.**
-/

namespace Columnar.Document

/-! ### Strings -/

theorem readString_plain {c : Char} (h : Escaped.IsPlain c) (rest : List Char) :
    readString (c :: rest) = (readString rest).map fun (s, r) => (c :: s, r) := by
  obtain ⟨hquote, hback, hlow⟩ := h
  rw [readString]
  · simp only [if_neg (Nat.not_lt.mpr hlow)]
  · exact hquote
  all_goals
    intros
    exact hback ‹_›

theorem readString_short {e x : Char} (h : Escaped.short? e = some x) (rest : List Char) :
    readString ('\\' :: e :: rest) = (readString rest).map fun (s, r) => (x :: s, r) := by
  have hcode : e ≠ 'u' := by
    rintro rfl
    cases h
  rw [readString]
  · simp only [h]
  all_goals
    intros
    exact hcode ‹_›

theorem readString_code {a b c d : Char} {n : Nat} (h : Escaped.hexFour? a b c d = some n)
    (hn : n < 0x80) (rest : List Char) : readString ('\\' :: 'u' :: a :: b :: c :: d :: rest)
      = (readString rest).map fun (s, r) => (Char.ofNat n :: s, r) := by
  have hhigh : Escaped.isHighSurrogate n = false := decide_eq_false (by omega)
  have hlow : Escaped.isLowSurrogate n = false := decide_eq_false (by omega)
  rw [readString]
  simp only [h, hhigh, hlow, Bool.false_eq_true, if_false]

/-- What stands for a character is read as it. -/
theorem readString_stands {c : Char} {text : List Char} (h : Escaped.Stands c text)
    (rest : List Char) :
    readString (text ++ rest) = (readString rest).map fun (s, r) => (c :: s, r) := by
  cases h with
  | plain h => exact readString_plain h rest
  | short he _ => exact readString_short he rest
  | @code n hc hn =>
    obtain ⟨a, b, c', d, hfour, hvalue, -⟩ := Escaped.exists_hexPadded hn
    rw [hfour, ← hc]
    exact readString_code hvalue hn rest

/-- **A string is read back**, up to its closing quote. -/
theorem readString_flatMap_char (cs rest : List Char) :
    readString (cs.flatMap (Escaped.char Escaped.isControl) ++ '"' :: rest) = .ok (cs, rest) := by
  induction cs with
  | nil => rfl
  | cons c cs ih =>
    rw [List.flatMap_cons, List.append_assoc,
      readString_stands (Escaped.stands_char_isControl c), ih]
    rfl

theorem stringChars_eq (s : String) (rest : List Char) : stringChars s ++ rest
    = '"' :: (s.toList.flatMap (Escaped.char Escaped.isControl) ++ '"' :: rest) := by
  simp only [stringChars, Escaped.string, List.cons_append, List.append_assoc, List.nil_append]

theorem readText_stringChars (s : String) (rest : List Char) :
    readText (s.toList.flatMap (Escaped.char Escaped.isControl) ++ '"' :: rest)
      = .ok (s, rest) := by
  rw [readText, readString_flatMap_char]
  simp only [Except.map, String.ofList_toList]

/-! ### What follows -/

/-- What follows a document in a text: nothing, or a character that goes on with no number. -/
def Ends (rest : List Char) : Prop := ∀ c ∈ rest.head?, c = ',' ∨ c = ']' ∨ c = '\x7d'

theorem ends_nil : Ends [] := nofun

theorem ends_cons {c : Char} (h : c = ',' ∨ c = ']' ∨ c = '\x7d') (rest : List Char) :
    Ends (c :: rest) := by
  rintro _ ⟨⟩
  exact h

/-! ### Whole numbers -/

theorem ofDigitChars_le (ds : List Char) (m : Nat) : m ≤ Nat.ofDigitChars 10 ds m := by
  induction ds generalizing m with
  | nil => exact le_refl m
  | cons c ds ih =>
    rw [Nat.ofDigitChars_cons]
    exact le_trans (by omega) (ih _)

/-- Digits are all taken into the significand if it stays within 64 bits. -/
theorem takeDigits_eq {ds : List Char} {m : Nat} (h : Nat.ofDigitChars 10 ds m ≤ maxSignificand) :
    takeDigits m ds = (Nat.ofDigitChars 10 ds m, 0) := by
  induction ds generalizing m with
  | nil => rfl
  | cons c ds ih =>
    have hnext : m * 10 + digitOf c = 10 * m + (c.toNat - '0'.toNat) := by
      rw [digitOf, Nat.mul_comm]
      rfl
    rw [Nat.ofDigitChars_cons] at h ⊢
    rw [takeDigits, hnext]
    simp only [if_pos (le_trans (ofDigitChars_le ds _) h), ih h]

/-- The digits of a number end where it ends. -/
theorem splitDigits_toDigits {n : Nat} {rest : List Char} (h : Ends rest) :
    splitDigits (Nat.toDigits 10 n ++ rest) = (Nat.toDigits 10 n, rest) := by
  have hdigits : ∀ c ∈ Nat.toDigits 10 n, isDigit c = true :=
    fun c hc => isDigit_of_mem_toDigits c hc
  have hrest : rest.takeWhile isDigit = [] ∧ rest.dropWhile isDigit = rest := by
    cases rest with
    | nil => exact ⟨rfl, rfl⟩
    | cons c rest =>
      have hc : isDigit c = false := by
        rcases h c rfl with rfl | rfl | rfl <;> rfl
      exact ⟨List.takeWhile_cons_of_neg (by simp [hc]), List.dropWhile_cons_of_neg (by simp [hc])⟩
  rw [splitDigits, List.takeWhile_append_of_pos hdigits, List.dropWhile_append_of_pos hdigits,
    hrest.1, hrest.2, List.append_nil]

/-- A whole number that is read as one: of 64 bits, and of a sign bit beside 63 if negative. -/
def FitsWord (n : Int) : Prop := -0x8000000000000000 ≤ n ∧ n ≤ maxSignificand

instance : DecidablePred FitsWord := fun _ => inferInstanceAs (Decidable (_ ∧ _))

theorem readUnsigned_toDigits {n : Nat} {rest : List Char} (negative : Bool) (h : Ends rest)
    (hn : n ≤ maxSignificand) : readUnsigned negative (Nat.toDigits 10 n ++ rest)
      = finishNumber negative n 0 rest := by
  have hwhole := isWhole_toDigits n
  have htake : takeDigits 0 (Nat.toDigits 10 n) = (n, 0) := by
    rw [takeDigits_eq] <;> rw [Nat.ofDigitChars_ten_toDigits]
    exact hn
  rw [readUnsigned, splitDigits_toDigits h]
  cases hds : Nat.toDigits 10 n with
  | nil => exact absurd hds hwhole.ne_nil
  | cons c cs =>
    rw [hds] at htake hwhole
    by_cases hzero : c = '0'
    · -- a zero in front stands alone
      subst hzero
      cases hwhole.zero rfl
      simp only [htake]
    · split
      · rename_i heq
        cases heq
      · rename_i heq
        cases heq
      · rename_i heq
        exact absurd (List.cons.inj (Prod.mk.inj heq).1).1 hzero
      · rename_i heq
        cases heq
        simp only [htake]

theorem finishNumber_of_ends {n : Nat} {rest : List Char} (negative : Bool) (h : Ends rest) :
    finishNumber negative n 0 rest =
      if ¬ negative then .ok (.int n, rest)
      else if n ≠ 0 ∧ n ≤ 0x8000000000000000 then .ok (.int (-n), rest)
      else (realOf true n 0).map (·, rest) := by
  have hhead : ¬ (rest.head? = some 'e' ∨ rest.head? = some 'E') := by
    rintro (he | he) <;> rcases h _ he with hc | hc | hc <;> cases hc
  rw [finishNumber]
  · simp only [hhead, not_false_eq_true, and_self, if_true]
  · rintro rest' rfl
    rcases h '.' rfl with hc | hc | hc <;> cases hc

/-- **A whole number of 64 bits is read back**, up to what follows. -/
theorem readNumber_intChars {n : Int} {rest : List Char} (hn : FitsWord n) (h : Ends rest) :
    readNumber (intChars n ++ rest) = .ok (.int n, rest) := by
  obtain ⟨hlow, hhigh⟩ := hn
  have hmax : (maxSignificand : Int) = 0xffffffffffffffff := rfl
  unfold intChars
  split_ifs with hneg
  · rw [List.cons_append, readNumber, readUnsigned_toDigits true h (by omega),
      finishNumber_of_ends true h]
    have habs : -((n.natAbs : Nat) : Int) = n := by omega
    rw [if_neg (by simp), if_pos (by omega), habs]
  · rw [readNumber]
    · have habs : ((n.natAbs : Nat) : Int) = n := by omega
      rw [readUnsigned_toDigits false h (by omega), finishNumber_of_ends false h,
        if_pos (by simp), habs]
    · intro rest' heq
      have hdigit := isDigit_of_mem_toDigits (n := n.natAbs)
      cases hds : Nat.toDigits 10 n.natAbs with
      | nil => exact Nat.toDigits_ne_nil hds
      | cons c cs =>
        rw [hds] at heq hdigit
        have hc := hdigit c List.mem_cons_self
        rw [(List.cons.inj heq).1] at hc
        cases hc

end Columnar.Document
