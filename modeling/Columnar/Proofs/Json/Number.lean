import Columnar.Json.Number
import Columnar.Proofs.Json.NumberParts
import Columnar.Proofs.Nearest

/-!
# What numbers stand for

A literal of the grammar always stands for a number, which its parts tell: without fraction and
exponent it is an integer, if 64 bits hold it, and in any other case the real that is nearest to
its digits.

## Main definitions

* `NumberParts.integer`, `NumberParts.value` — the integer before the point, and the value of all
  digits.
* `NumberParts.nearest` — the real of some parts.
* `NumberParts.number` — the number of some parts.

## Main results

* `NumberParts.nearest_isNearest` — the real of some parts is the nearest one to their value.
* `NumberParts.IsGrammatical.ofLiteral?` — **the number that is read is the one of the parts.**
-/

namespace Columnar

namespace NumberParts

/-- The integer before the point. -/
def integer (p : NumberParts) : Int := signedInt p.negative (digitsValue 0 p.whole)

/-- The value of the exponent: zero, or that of its digits, whose sign ends the mark. -/
def exponentValue (p : NumberParts) : Int :=
  match p.exponent with
  | none => 0
  | some (mark, ds) => signedInt (mark.getLast? == some 0x2d) (digitsValue 0 ds)

/-- All digits as one whole number of some power of ten. -/
def decimal (p : NumberParts) : Decimal :=
  ⟨digitsValue 0 (p.whole ++ p.fraction.getD []), p.exponentValue - (p.fraction.getD []).length⟩

/-- The nearest real. -/
def nearest (p : NumberParts) : Binary64 := p.decimal.toBinary64 p.negative

/-- The number of some parts: a fraction or an exponent makes a real; any other number is an
integer, or the nearest real if 64 bits do not hold it. -/
def number (p : NumberParts) : Number :=
  if p.fraction.isSome || p.exponent.isSome then .real p.nearest
  else if fitsInt64 p.integer then .int (Int64.ofInt p.integer)
  else .large p.nearest

/-- The value of the digits, with the sign before them. -/
def value (p : NumberParts) : ℚ := Binary64.signOf p.negative * p.decimal.value

/-- The real of some parts is the nearest one to their value. -/
theorem nearest_isNearest (p : NumberParts) : p.nearest.IsNearest p.value :=
  p.decimal.toBinary64_isNearest p.negative

theorem value_eq_integer {p : NumberParts} (hf : p.fraction = none) (he : p.exponent = none) :
    p.value = p.integer := by
  rw [value, decimal, exponentValue, integer, hf, he]
  cases p.negative <;> simp [Binary64.signOf, signedInt, Decimal.value]

end NumberParts

/-! ### Signs -/

theorem splitSign_digits {ds rest : List UInt8} (hne : ds ≠ [])
    (hds : ∀ b ∈ ds, isDigitByte b = true) : splitSign (ds ++ rest) = (false, ds ++ rest) := by
  obtain ⟨d, ds, rfl⟩ := List.exists_cons_of_ne_nil hne
  have hd := hds d List.mem_cons_self
  rw [List.cons_append]
  unfold splitSign
  split
  · next heq =>
    cases heq
    cases hd
  · next heq =>
    cases heq
    cases hd
  · rfl

theorem splitSign_plus (text : List UInt8) : splitSign (0x2b :: text) = (false, text) := rfl

theorem splitSign_minus (text : List UInt8) : splitSign (0x2d :: text) = (true, text) := rfl

/-- Digits behind a sign, or without one, are an integer. -/
theorem readInt?_eq {text ds : List UInt8} {negative : Bool}
    (hsign : splitSign text = (negative, ds)) (hne : ds ≠ [])
    (hds : ∀ b ∈ ds, isDigitByte b = true) :
    readInt? text = some (signedInt negative (digitsValue 0 ds)) := by
  unfold readInt?
  rw [hsign]
  exact if_pos ⟨hne, List.all_eq_true.mpr hds⟩

/-! ### Literals -/

namespace NumberParts.IsGrammatical

variable {p : NumberParts}

theorem splitSign_literal (h : p.IsGrammatical) : splitSign p.literal
    = (p.negative, p.whole ++ (p.fractionBytes ++ p.exponentBytes)) := by
  unfold literal signBytes
  cases p.negative with
  | true =>
    rw [List.append_assoc, List.append_assoc]
    rfl
  | false =>
    rw [if_neg Bool.false_ne_true, List.nil_append, List.append_assoc,
      splitSign_digits h.whole_ne_nil h.whole]

theorem readExponent?_exponentBytes (h : p.IsGrammatical) :
    readExponent? p.exponentBytes = some p.exponentValue := by
  unfold exponentBytes exponentValue
  cases he : p.exponent with
  | none => rfl
  | some e =>
    obtain ⟨mark, ds⟩ := e
    have hmark := h.mark _ he
    have hne := h.exponent_ne_nil _ he
    have hds := h.exponent _ he
    simp only [exponentMarks, List.mem_cons, List.not_mem_nil, or_false] at hmark
    have hplain : splitSign (ds ++ []) = (false, ds ++ []) := splitSign_digits hne hds
    rw [List.append_nil] at hplain
    rcases hmark with rfl | rfl | rfl | rfl | rfl | rfl
    · exact readInt?_eq hplain hne hds
    · exact readInt?_eq hplain hne hds
    · exact readInt?_eq (splitSign_plus ds) hne hds
    · exact readInt?_eq (splitSign_plus ds) hne hds
    · exact readInt?_eq (splitSign_minus ds) hne hds
    · exact readInt?_eq (splitSign_minus ds) hne hds

/-- An unsigned literal is a decimal. -/
theorem readDecimal?_literal (h : p.IsGrammatical) :
    readDecimal? (p.whole ++ (p.fractionBytes ++ p.exponentBytes)) = some p.decimal := by
  have hexponent : ∀ b ∈ p.exponentBytes.head?, isDigitByte b = false ∧ b ≠ 0x2e := by
    cases he : p.exponent with
    | some e =>
      have := h.isShaped.head?_exponentBytes he []
      rwa [List.append_nil] at this
    | none =>
      rw [exponentBytes, he]
      rintro b ⟨⟩
  have hwhole := h.isShaped.splitDigitBytes_whole
    (p.head?_fractionBytes fun b hb => (hexponent b hb).1)
  rw [splitDigitBytes, Prod.mk.injEq] at hwhole
  have hread := h.readExponent?_exponentBytes
  unfold readDecimal?
  simp only [hwhole.1, hwhole.2, h.whole_ne_nil, false_and, if_false]
  cases hf : p.fraction with
  | some ds =>
    have hpart := splitDigitBytes_digits (h.fraction ds hf) p.exponentBytes
    rw [splitDigitBytes_of_head? fun b hb => (hexponent b hb).1, List.append_nil,
      splitDigitBytes, Prod.mk.injEq] at hpart
    rw [fractionBytes, hf]
    simp only [List.cons_append, hpart.1, hpart.2, hread, Option.map_some]
    rw [decimal, hf]
    rfl
  | none =>
    have hnil : p.fractionBytes = [] := by rw [fractionBytes, hf]
    have hdecimal : p.decimal = ⟨digitsValue 0 (p.whole ++ []), p.exponentValue - (0 : Nat)⟩ := by
      rw [decimal, hf]
      rfl
    rw [hnil, List.nil_append, hdecimal]
    split
    · next rest heq => exact absurd rfl (hexponent 0x2e (by rw [heq]; rfl)).2
    · rw [hread]
      rfl

theorem readReal?_literal (h : p.IsGrammatical) : readReal? p.literal = some p.nearest := by
  rw [readReal?, h.splitSign_literal]
  simp only [h.readDecimal?_literal]
  rfl

theorem readInt64?_literal (h : p.IsGrammatical) (hf : p.fraction = none)
    (he : p.exponent = none) : readInt64? p.literal
      = if fitsInt64 p.integer then some (Int64.ofInt p.integer) else none := by
  have hsign := h.splitSign_literal
  rw [fractionBytes, hf, exponentBytes, he, List.append_nil, List.append_nil] at hsign
  rw [readInt64?, readInt?_eq hsign h.whole_ne_nil h.whole]
  rfl

/-- **The number that is read is the one of the parts**; every literal of the grammar is read. -/
theorem ofLiteral? (h : p.IsGrammatical) : Number.ofLiteral? p.shape p.literal = some p.number := by
  have hreal := h.readReal?_literal
  unfold NumberParts.number NumberParts.shape
  by_cases hshape : (p.fraction.isSome || p.exponent.isSome) = true
  · rw [if_pos hshape, if_pos hshape, Number.ofLiteral?, hreal]
    rfl
  · have hnone : p.fraction = none ∧ p.exponent = none := by
      simpa using hshape
    have hint := h.readInt64?_literal hnone.1 hnone.2
    rw [if_neg hshape, if_neg hshape]
    -- the sign makes no difference to how an integer is read
    cases p.negative with
    | true | false =>
      simp only [if_true, Bool.false_eq_true, if_false, Number.ofLiteral?, hint, hreal]
      by_cases hfits : fitsInt64 p.integer = true
      · rw [if_pos hfits, if_pos hfits]
      · rw [if_neg hfits, if_neg hfits]
        rfl

end NumberParts.IsGrammatical

end Columnar
