import Columnar.Json.Scan

/-!
# The parts of a number

A number is split at its front, part by part, and each part takes what it can.  The parts put
together are the bytes they came from, what is split off stays when more bytes arrive behind a
rest, and no literal of the grammar is longer than the one that is split off.

## Main definitions

* `NumberParts.IsShaped`, `NumberParts.IsGrammatical` — the shape and the grammar of numbers, part
  by part.

## Main results

* `literal_append_rest` — nothing is lost.
* `splitNumber_append` — what is split off stays.
* `flaw?_splitNumber_eq_none_iff` — a number without a flaw is one of the grammar.
* `NumberParts.IsGrammatical.splitNumber_eq` — **every literal of the grammar is split off
  whole.**
* `NumberParts.IsGrammatical.length_literal_le` — **the longest one is split off.**
-/

namespace Columnar

/-! ### Digits -/

/-- A run of bytes that something follows is complete. -/
theorem takeWhile_append_of_dropWhile_ne_nil {p : UInt8 → Bool} {bytes : List UInt8}
    (h : bytes.dropWhile p ≠ []) (more : List UInt8) :
    (bytes ++ more).takeWhile p = bytes.takeWhile p := by
  rw [List.takeWhile_append, if_neg]
  intro hlen
  have hsum := congrArg List.length (List.takeWhile_append_dropWhile (p := p) (l := bytes))
  rw [List.length_append] at hsum
  exact h (List.eq_nil_of_length_eq_zero (by omega))

theorem dropWhile_append_of_dropWhile_ne_nil {p : UInt8 → Bool} {bytes : List UInt8}
    (h : bytes.dropWhile p ≠ []) (more : List UInt8) :
    (bytes ++ more).dropWhile p = bytes.dropWhile p ++ more := by
  rw [List.dropWhile_append, if_neg (by simpa using h)]

theorem splitDigitBytes_append_rest (bytes : List UInt8) :
    (splitDigitBytes bytes).1 ++ (splitDigitBytes bytes).2 = bytes :=
  List.takeWhile_append_dropWhile

theorem isDigitByte_of_mem_splitDigitBytes {bytes : List UInt8} {b : UInt8}
    (h : b ∈ (splitDigitBytes bytes).1) : isDigitByte b = true :=
  List.all_eq_true.mp List.all_takeWhile b h

theorem length_splitDigitBytes_le (bytes : List UInt8) :
    (splitDigitBytes bytes).2.length ≤ bytes.length :=
  (List.dropWhile_sublist isDigitByte).length_le

/-- Digits are split off together with the digits behind them. -/
theorem splitDigitBytes_digits {ds : List UInt8} (hds : ∀ b ∈ ds, isDigitByte b = true)
    (rest : List UInt8) :
    splitDigitBytes (ds ++ rest) = (ds ++ (splitDigitBytes rest).1, (splitDigitBytes rest).2) := by
  rw [splitDigitBytes, List.takeWhile_append_of_pos hds, List.dropWhile_append_of_pos hds]
  rfl

theorem splitDigitBytes_of_head? {rest : List UInt8}
    (h : ∀ b ∈ rest.head?, isDigitByte b = false) : splitDigitBytes rest = ([], rest) := by
  cases rest with
  | nil => rfl
  | cons b rest =>
    have hb : isDigitByte b = false := h b rfl
    rw [splitDigitBytes, List.takeWhile_cons, List.dropWhile_cons, hb]
    rfl

theorem splitDigitBytes_append {bytes : List UInt8} (h : (splitDigitBytes bytes).2 ≠ [])
    (more : List UInt8) : splitDigitBytes (bytes ++ more)
      = ((splitDigitBytes bytes).1, (splitDigitBytes bytes).2 ++ more) :=
  Prod.ext (takeWhile_append_of_dropWhile_ne_nil h more)
    (dropWhile_append_of_dropWhile_ne_nil h more)

/-! ### The fraction -/

theorem splitFraction_point (rest : List UInt8) : splitFraction (0x2e :: rest)
    = (some (splitDigitBytes rest).1, (splitDigitBytes rest).2) := rfl

theorem splitFraction_of_head? {bytes : List UInt8} (h : bytes.head? ≠ some 0x2e) :
    splitFraction bytes = (none, bytes) := by
  unfold splitFraction
  split
  · exact absurd rfl h
  · rfl

theorem splitFraction_append {bytes : List UInt8} (h : (splitFraction bytes).2 ≠ [])
    (more : List UInt8) :
    splitFraction (bytes ++ more) = ((splitFraction bytes).1, (splitFraction bytes).2 ++ more) := by
  cases bytes with
  | nil => exact absurd rfl h
  | cons b bytes =>
    by_cases hb : b = 0x2e
    · subst hb
      rw [splitFraction_point] at h
      rw [List.cons_append, splitFraction_point, splitFraction_point, splitDigitBytes_append h]
    · have hhead : b ≠ 0x2e := hb
      rw [splitFraction_of_head? (by simpa using hhead), List.cons_append,
        splitFraction_of_head? (by simpa using hhead), List.cons_append]

theorem length_splitFraction_le (bytes : List UInt8) :
    (splitFraction bytes).2.length ≤ bytes.length := by
  by_cases h : bytes.head? = some 0x2e
  · obtain ⟨rest, rfl⟩ := List.head?_eq_some_iff.mp h
    exact Nat.le_succ_of_le (length_splitDigitBytes_le rest)
  · exact Nat.le_of_eq (congrArg (·.2.length) (splitFraction_of_head? h))

theorem isDigitByte_of_mem_splitFraction {bytes : List UInt8} :
    ∀ ds ∈ (splitFraction bytes).1, ∀ b ∈ ds, isDigitByte b = true := by
  intro ds hds b hb
  by_cases h : bytes.head? = some 0x2e
  · obtain ⟨rest, rfl⟩ := List.head?_eq_some_iff.mp h
    cases hds
    exact isDigitByte_of_mem_splitDigitBytes hb
  · rw [splitFraction_of_head? h] at hds
    cases hds

/-! ### The exponent -/

/-- What an exponent starts with: its mark, with a sign or without. -/
def exponentMarks : List (List UInt8) :=
  [[0x65], [0x45], [0x65, 0x2b], [0x45, 0x2b], [0x65, 0x2d], [0x45, 0x2d]]

/-- An exponent starts with a mark. -/
def isExponentByte (b : UInt8) : Bool := b == 0x65 || b == 0x45

theorem splitExponent_of_head? {bytes : List UInt8}
    (h : ∀ b ∈ bytes.head?, isExponentByte b = false) : splitExponent bytes = (none, bytes) := by
  cases bytes with
  | nil => rfl
  | cons b rest =>
    have hb : ¬ (b = 0x65 ∨ b = 0x45) := by
      have := h b rfl
      simpa [isExponentByte] using this
    exact if_neg hb

/-- Behind a mark that no sign follows but its own, the digits are split off. -/
theorem splitExponent_mark {mark rest : List UInt8} (h : mark ∈ exponentMarks)
    (hsign : mark.length = 1 → ∀ b ∈ rest.head?, b ≠ 0x2b ∧ b ≠ 0x2d) :
    splitExponent (mark ++ rest)
      = (some (mark, (splitDigitBytes rest).1), (splitDigitBytes rest).2) := by
  simp only [exponentMarks, List.mem_cons, List.not_mem_nil, or_false] at h
  rcases h with rfl | rfl | rfl | rfl | rfl | rfl
  case inr.inr.inl | inr.inr.inr.inl | inr.inr.inr.inr.inl | inr.inr.inr.inr.inr => rfl
  all_goals
    cases rest with
    | nil => rfl
    | cons b rest =>
      obtain ⟨hplus, hminus⟩ := hsign rfl b rfl
      simp [splitExponent, hplus, hminus]

/-- The bytes of an exponent behind its mark. -/
theorem exists_exponentMark {bytes : List UInt8}
    (h : ¬ ∀ b ∈ bytes.head?, isExponentByte b = false) :
    ∃ mark ∈ exponentMarks, ∃ digits, bytes = mark ++ digits ∧
      (mark.length = 1 → ∀ c ∈ digits.head?, c ≠ 0x2b ∧ c ≠ 0x2d) := by
  obtain ⟨b, rest, rfl, hb⟩ : ∃ b rest, bytes = b :: rest ∧ (b = 0x65 ∨ b = 0x45) := by
    cases bytes with
    | nil => simp at h
    | cons b rest =>
      exact ⟨b, rest, rfl, by simpa [isExponentByte, Decidable.or_iff_not_imp_left] using h⟩
  by_cases hsign : rest.head? = some 0x2b ∨ rest.head? = some 0x2d
  · obtain ⟨c, digits, rfl⟩ : ∃ c digits, rest = c :: digits := by
      cases rest with
      | nil => simp at hsign
      | cons c digits => exact ⟨c, digits, rfl⟩
    refine ⟨[b, c], ?_, digits, rfl, fun hlen => by cases hlen⟩
    simp only [List.head?_cons, Option.some.injEq] at hsign
    rcases hb with rfl | rfl <;> rcases hsign with rfl | rfl <;> decide
  · refine ⟨[b], ?_, rest, rfl, fun _ c hc => ?_⟩
    · rcases hb with rfl | rfl <;> decide
    · rw [Option.mem_def] at hc
      rw [hc] at hsign
      constructor
      · rintro rfl
        exact hsign (.inl rfl)
      · rintro rfl
        exact hsign (.inr rfl)

theorem splitExponent_append {bytes : List UInt8} (h : (splitExponent bytes).2 ≠ [])
    (more : List UInt8) :
    splitExponent (bytes ++ more) = ((splitExponent bytes).1, (splitExponent bytes).2 ++ more) := by
  by_cases hmark : ∀ b ∈ bytes.head?, isExponentByte b = false
  · rw [splitExponent_of_head? hmark] at h ⊢
    obtain ⟨b, bytes, rfl⟩ := List.exists_cons_of_ne_nil h
    exact splitExponent_of_head? hmark
  · obtain ⟨mark, hmem, digits, rfl, hsign⟩ := exists_exponentMark hmark
    rw [splitExponent_mark hmem hsign] at h ⊢
    have hdigits : digits ≠ [] := by
      rintro rfl
      exact h rfl
    rw [List.append_assoc, splitExponent_mark hmem, splitDigitBytes_append h]
    obtain ⟨c, digits, rfl⟩ := List.exists_cons_of_ne_nil hdigits
    exact hsign

theorem length_splitExponent_le (bytes : List UInt8) :
    (splitExponent bytes).2.length ≤ bytes.length := by
  by_cases hmark : ∀ b ∈ bytes.head?, isExponentByte b = false
  · exact Nat.le_of_eq (congrArg (·.2.length) (splitExponent_of_head? hmark))
  · obtain ⟨mark, hmem, digits, rfl, hsign⟩ := exists_exponentMark hmark
    rw [splitExponent_mark hmem hsign, List.length_append]
    exact Nat.le_trans (length_splitDigitBytes_le digits) (Nat.le_add_left _ _)

/-- An exponent that is split off has a mark and digits. -/
theorem splitExponent_wellFormed {bytes : List UInt8} {e : List UInt8 × List UInt8}
    (h : e ∈ (splitExponent bytes).1) :
    e.1 ∈ exponentMarks ∧ ∀ b ∈ e.2, isDigitByte b = true := by
  by_cases hmark : ∀ b ∈ bytes.head?, isExponentByte b = false
  · rw [splitExponent_of_head? hmark] at h
    cases h
  · obtain ⟨mark, hmem, digits, rfl, hsign⟩ := exists_exponentMark hmark
    rw [splitExponent_mark hmem hsign] at h
    cases h
    exact ⟨hmem, fun b hb => isDigitByte_of_mem_splitDigitBytes hb⟩

/-! ### The whole -/

/-- The parts of a number behind its sign. -/
def splitUnsigned (negative : Bool) (bytes : List UInt8) : NumberParts :=
  let afterWhole := (splitDigitBytes bytes).2
  let afterFraction := (splitFraction afterWhole).2
  ⟨negative, (splitDigitBytes bytes).1, (splitFraction afterWhole).1,
    (splitExponent afterFraction).1, (splitExponent afterFraction).2⟩

theorem splitNumber_minus (bytes : List UInt8) :
    splitNumber (0x2d :: bytes) = splitUnsigned true bytes := rfl

theorem splitNumber_of_head? {bytes : List UInt8} (h : bytes.head? ≠ some 0x2d) :
    splitNumber bytes = splitUnsigned false bytes := by
  unfold splitNumber
  split
  · next heq =>
    split at heq
    · exact absurd rfl h
    · cases heq
      rfl

/-- A number is split behind its sign. -/
theorem exists_splitNumber (bytes : List UInt8) : ∃ negative unsigned,
    splitNumber bytes = splitUnsigned negative unsigned ∧
      bytes = (if negative then [0x2d] else []) ++ unsigned ∧
      (negative = false → bytes.head? ≠ some 0x2d) := by
  by_cases h : bytes.head? = some 0x2d
  · obtain ⟨unsigned, rfl⟩ := List.head?_eq_some_iff.mp h
    exact ⟨true, unsigned, rfl, rfl, fun hn => by cases hn⟩
  · exact ⟨false, bytes, splitNumber_of_head? h, rfl, fun _ => h⟩

theorem NumberParts.fractionBytes_append {p : NumberParts} {bytes rest : List UInt8}
    (h : splitFraction bytes = (p.fraction, rest)) : p.fractionBytes ++ rest = bytes := by
  unfold fractionBytes
  by_cases hpoint : bytes.head? = some 0x2e
  · obtain ⟨digits, rfl⟩ := List.head?_eq_some_iff.mp hpoint
    rw [splitFraction_point, Prod.mk.injEq] at h
    rw [← h.1, ← h.2]
    exact congrArg _ (splitDigitBytes_append_rest digits)
  · rw [splitFraction_of_head? hpoint, Prod.mk.injEq] at h
    rw [← h.1, ← h.2]
    rfl

theorem NumberParts.exponentBytes_append {p : NumberParts} {bytes rest : List UInt8}
    (h : splitExponent bytes = (p.exponent, rest)) : p.exponentBytes ++ rest = bytes := by
  unfold exponentBytes
  by_cases hmark : ∀ b ∈ bytes.head?, isExponentByte b = false
  · rw [splitExponent_of_head? hmark, Prod.mk.injEq] at h
    rw [← h.1, ← h.2]
    rfl
  · obtain ⟨mark, hmem, digits, rfl, hsign⟩ := exists_exponentMark hmark
    rw [splitExponent_mark hmem hsign, Prod.mk.injEq] at h
    rw [← h.1, ← h.2]
    show mark ++ (splitDigitBytes digits).1 ++ (splitDigitBytes digits).2 = mark ++ digits
    rw [List.append_assoc, splitDigitBytes_append_rest]

/-- Behind the sign nothing is lost. -/
theorem splitUnsigned_append_rest (negative : Bool) (bytes : List UInt8) :
    (splitUnsigned negative bytes).whole ++ ((splitUnsigned negative bytes).fractionBytes
      ++ ((splitUnsigned negative bytes).exponentBytes ++ (splitUnsigned negative bytes).rest))
        = bytes := by
  have hexponent : (splitUnsigned negative bytes).exponentBytes
      ++ (splitUnsigned negative bytes).rest = (splitFraction (splitDigitBytes bytes).2).2 :=
    NumberParts.exponentBytes_append rfl
  have hfraction : (splitUnsigned negative bytes).fractionBytes
      ++ (splitFraction (splitDigitBytes bytes).2).2 = (splitDigitBytes bytes).2 :=
    NumberParts.fractionBytes_append rfl
  rw [hexponent, hfraction]
  exact splitDigitBytes_append_rest bytes

/-- Nothing is lost. -/
theorem literal_append_rest (bytes : List UInt8) :
    (splitNumber bytes).literal ++ (splitNumber bytes).rest = bytes := by
  obtain ⟨negative, unsigned, heq, hbytes, -⟩ := exists_splitNumber bytes
  rw [heq, NumberParts.literal, List.append_assoc, List.append_assoc, List.append_assoc,
    splitUnsigned_append_rest, hbytes]
  rfl

/-- What is split off stays when more bytes arrive behind a rest. -/
theorem splitNumber_append {bytes : List UInt8} (h : (splitNumber bytes).rest ≠ [])
    (more : List UInt8) : splitNumber (bytes ++ more)
      = { splitNumber bytes with rest := (splitNumber bytes).rest ++ more } := by
  obtain ⟨negative, unsigned, heq, hbytes, hsign⟩ := exists_splitNumber bytes
  rw [heq] at h ⊢
  have hafter : (splitFraction (splitDigitBytes unsigned).2).2 ≠ [] := by
    intro hnil
    apply h
    simp only [splitUnsigned, hnil]
    rfl
  have hwhole : (splitDigitBytes unsigned).2 ≠ [] := by
    intro hnil
    apply hafter
    rw [hnil]
    rfl
  have hparts : splitUnsigned negative (unsigned ++ more)
      = { splitUnsigned negative unsigned with
          rest := (splitUnsigned negative unsigned).rest ++ more } := by
    simp only [splitUnsigned, splitDigitBytes_append hwhole, splitFraction_append hafter,
      splitExponent_append h]
  cases negative with
  | true =>
    rw [hbytes, ← hparts]
    rfl
  | false =>
    rw [← hparts, hbytes]
    refine splitNumber_of_head? ?_
    have hne : unsigned ≠ [] := by
      rintro rfl
      exact hwhole rfl
    obtain ⟨b, unsigned, rfl⟩ := List.exists_cons_of_ne_nil hne
    rw [hbytes] at hsign
    exact hsign rfl

/-! ### The grammar -/

namespace NumberParts

/-- The shape of numbers, part by part: any group of digits may be missing. -/
structure IsShaped (p : NumberParts) : Prop where
  whole : ∀ b ∈ p.whole, isDigitByte b = true
  fraction : ∀ ds ∈ p.fraction, ∀ b ∈ ds, isDigitByte b = true
  mark : ∀ e ∈ p.exponent, e.1 ∈ exponentMarks
  exponent : ∀ e ∈ p.exponent, ∀ b ∈ e.2, isDigitByte b = true

/-- The grammar of numbers, part by part: there are digits before the point, the first of several
is no zero, and a fraction and an exponent have digits. -/
structure IsGrammatical (p : NumberParts) : Prop where
  whole_ne_nil : p.whole ≠ []
  whole : ∀ b ∈ p.whole, isDigitByte b = true
  zero : p.whole.head? = some 0x30 → p.whole = [0x30]
  fraction_ne_nil : p.fraction ≠ some []
  fraction : ∀ ds ∈ p.fraction, ∀ b ∈ ds, isDigitByte b = true
  mark : ∀ e ∈ p.exponent, e.1 ∈ exponentMarks
  exponent_ne_nil : ∀ e ∈ p.exponent, e.2 ≠ []
  exponent : ∀ e ∈ p.exponent, ∀ b ∈ e.2, isDigitByte b = true

theorem IsGrammatical.isShaped {p : NumberParts} (h : p.IsGrammatical) : p.IsShaped :=
  ⟨h.whole, h.fraction, h.mark, h.exponent⟩

/-- A zero that is not the first of several digits. -/
theorem not_zeroBefore_iff {ds : List UInt8} : ¬ (ds.head? = some 0x30 ∧ 1 < ds.length)
    ↔ (ds.head? = some 0x30 → ds = [0x30]) := by
  cases ds with
  | nil => simp
  | cons b ds => cases ds <;> simp

theorem flaw?_eq_none_iff {p : NumberParts} : p.flaw? = none ↔
    p.whole ≠ [] ∧ (p.whole.head? = some 0x30 → p.whole = [0x30]) ∧ p.fraction ≠ some [] ∧
      ∀ e ∈ p.exponent, e.2 ≠ [] := by
  rw [← not_zeroBefore_iff]
  unfold flaw?
  split
  · next h => simp [h]
  · next h =>
    split
    · next hz => simp [hz]
    · next hz =>
      split
      · next hf => simp [hf]
      · next hf =>
        split
        · next mark he => simp [he]
        · next hne =>
          refine iff_of_true rfl ⟨h, hz, hf, fun e he hnil => ?_⟩
          obtain ⟨mark, ds⟩ := e
          subst hnil
          exact hne mark he

theorem flaw?_le {p : NumberParts} {place : Nat} (h : p.flaw? = some place) :
    place ≤ p.literal.length := by
  have hlen : p.literal.length = p.signBytes.length + p.whole.length + p.fractionBytes.length
      + p.exponentBytes.length := by
    simp [literal, Nat.add_assoc]
  unfold flaw? at h
  rw [hlen]
  split at h
  · cases h
    omega
  · split at h
    · cases h
      omega
    · split at h
      · next hf =>
        have : p.fractionBytes.length = 1 := by rw [fractionBytes, hf]; rfl
        cases h
        omega
      · split at h
        · next mark he =>
          have : p.exponentBytes.length = mark.length := by
            rw [exponentBytes, he]
            exact congrArg List.length (List.append_nil mark)
          cases h
          omega
        · cases h

end NumberParts

/-- The digits that are split off are digits, and the exponent has a mark. -/
theorem isShaped_splitNumber (bytes : List UInt8) : (splitNumber bytes).IsShaped := by
  obtain ⟨negative, unsigned, heq, -, -⟩ := exists_splitNumber bytes
  rw [heq]
  exact ⟨fun b hb => isDigitByte_of_mem_splitDigitBytes hb, isDigitByte_of_mem_splitFraction,
    fun e he => (splitExponent_wellFormed he).1, fun e he => (splitExponent_wellFormed he).2⟩

/-- What is split off has the shape of a number, so that only a flaw keeps it from being one. -/
theorem isGrammatical_splitNumber_iff (bytes : List UInt8) :
    (splitNumber bytes).IsGrammatical ↔ (splitNumber bytes).flaw? = none := by
  rw [NumberParts.flaw?_eq_none_iff]
  constructor
  · intro h
    exact ⟨h.whole_ne_nil, h.zero, h.fraction_ne_nil, h.exponent_ne_nil⟩
  · rintro ⟨hne, hzero, hf, he⟩
    have h := isShaped_splitNumber bytes
    exact ⟨hne, h.whole, hzero, hf, h.fraction, h.mark, he, h.exponent⟩

/-! ### Literals of the grammar -/

/-- Whether a byte behind a number may go on with it. -/
def continuesNumber (b : UInt8) : Bool := isDigitByte b || b == 0x2e || isExponentByte b

/-- A fraction ends the digits before the point. -/
theorem NumberParts.head?_fractionBytes (p : NumberParts) {rest : List UInt8}
    (hrest : ∀ b ∈ rest.head?, isDigitByte b = false) :
    ∀ b ∈ (p.fractionBytes ++ rest).head?, isDigitByte b = false := by
  unfold fractionBytes
  cases p.fraction with
  | some ds =>
    intro b hb
    cases hb
    rfl
  | none => exact hrest

namespace NumberParts.IsShaped

variable {p : NumberParts}

theorem splitDigitBytes_whole (h : p.IsShaped) {rest : List UInt8}
    (hrest : ∀ b ∈ rest.head?, isDigitByte b = false) :
    splitDigitBytes (p.whole ++ rest) = (p.whole, rest) := by
  rw [splitDigitBytes_digits h.whole, splitDigitBytes_of_head? hrest, List.append_nil]

/-- A fraction is split off with the digits that follow. -/
theorem splitFraction_fraction (h : p.IsShaped) {ds : List UInt8} (hf : p.fraction = some ds)
    (rest : List UInt8) : splitFraction (p.fractionBytes ++ rest)
      = (some (ds ++ (splitDigitBytes rest).1), (splitDigitBytes rest).2) := by
  rw [fractionBytes, hf]
  show splitFraction (0x2e :: (ds ++ rest)) = _
  rw [splitFraction_point, splitDigitBytes_digits (h.fraction ds hf)]

theorem splitFraction_fractionBytes (h : p.IsShaped) {rest : List UInt8}
    (hrest : ∀ b ∈ rest.head?, isDigitByte b = false ∧ b ≠ 0x2e) :
    splitFraction (p.fractionBytes ++ rest) = (p.fraction, rest) := by
  cases hf : p.fraction with
  | some ds =>
    rw [h.splitFraction_fraction hf, splitDigitBytes_of_head? fun b hb => (hrest b hb).1,
      List.append_nil]
  | none =>
    rw [fractionBytes, hf]
    exact splitFraction_of_head? fun hhead => (hrest 0x2e hhead).2 rfl

/-- An exponent ends the fraction. -/
theorem head?_exponentBytes (h : p.IsShaped) {e : List UInt8 × List UInt8}
    (he : p.exponent = some e) (rest : List UInt8) :
    ∀ b ∈ (p.exponentBytes ++ rest).head?, isDigitByte b = false ∧ b ≠ 0x2e := by
  have hmark := h.mark e he
  rw [exponentBytes, he]
  simp only [exponentMarks, List.mem_cons, List.not_mem_nil, or_false] at hmark
  obtain ⟨mark, ds⟩ := e
  intro b hb
  rcases hmark with rfl | rfl | rfl | rfl | rfl | rfl <;> (cases hb; decide)

end NumberParts.IsShaped

namespace NumberParts.IsGrammatical

variable {p : NumberParts}

/-- An exponent is split off with the digits that follow. -/
theorem splitExponent_exponent (h : p.IsGrammatical) {mark ds : List UInt8}
    (he : p.exponent = some (mark, ds)) (rest : List UInt8) :
    splitExponent (p.exponentBytes ++ rest)
      = (some (mark, ds ++ (splitDigitBytes rest).1), (splitDigitBytes rest).2) := by
  have hds : ∀ b ∈ ds, isDigitByte b = true := h.exponent _ he
  obtain ⟨d, digits, rfl⟩ := List.exists_cons_of_ne_nil (h.exponent_ne_nil _ he)
  rw [exponentBytes, he]
  show splitExponent (mark ++ (d :: digits) ++ rest) = _
  rw [List.append_assoc, splitExponent_mark (h.mark _ he), splitDigitBytes_digits hds]
  -- a digit is no sign
  intro _ b hb
  cases hb
  have hd := hds d List.mem_cons_self
  constructor <;> (rintro rfl; cases hd)

theorem splitExponent_exponentBytes (h : p.IsGrammatical) {rest : List UInt8}
    (hrest : ∀ b ∈ rest.head?, isDigitByte b = false ∧ isExponentByte b = false) :
    splitExponent (p.exponentBytes ++ rest) = (p.exponent, rest) := by
  cases he : p.exponent with
  | some e =>
    rw [h.splitExponent_exponent he, splitDigitBytes_of_head? fun b hb => (hrest b hb).1,
      List.append_nil]
  | none =>
    rw [exponentBytes, he]
    exact splitExponent_of_head? fun b hb => (hrest b hb).2

/-- The bytes behind the sign are split part by part. -/
theorem splitNumber_literal (h : p.IsGrammatical) (rest : List UInt8) :
    splitNumber (p.literal ++ rest) = splitUnsigned p.negative
      (p.whole ++ (p.fractionBytes ++ (p.exponentBytes ++ rest))) := by
  obtain ⟨b, ds, hb⟩ := List.exists_cons_of_ne_nil h.whole_ne_nil
  have hdigit : isDigitByte b = true := h.whole b (by rw [hb]; exact List.mem_cons_self)
  simp only [literal, List.append_assoc]
  cases hneg : p.negative with
  | true =>
    rw [signBytes, hneg]
    exact splitNumber_minus _
  | false =>
    rw [signBytes, hneg]
    refine splitNumber_of_head? ?_
    rw [hb]
    rintro hhead
    cases hhead
    cases hdigit

/-- **Every literal of the grammar is split off whole**, unless it goes on. -/
theorem splitNumber_eq (h : p.IsGrammatical) {rest : List UInt8}
    (hrest : ∀ b ∈ rest.head?, continuesNumber b = false) :
    splitNumber (p.literal ++ rest) = { p with rest } := by
  simp only [continuesNumber, Bool.or_eq_false_iff, beq_eq_false_iff_ne] at hrest
  have hexponent := h.splitExponent_exponentBytes fun b hb => ⟨(hrest b hb).1.1, (hrest b hb).2⟩
  have hends : ∀ b ∈ (p.exponentBytes ++ rest).head?, isDigitByte b = false ∧ b ≠ 0x2e := by
    cases he : p.exponent with
    | some e => exact h.isShaped.head?_exponentBytes he rest
    | none =>
      rw [exponentBytes, he]
      exact fun b hb => (hrest b hb).1
  have hfraction := h.isShaped.splitFraction_fractionBytes hends
  have hwhole := h.isShaped.splitDigitBytes_whole (p.head?_fractionBytes fun b hb => (hends b hb).1)
  rw [h.splitNumber_literal]
  simp only [splitUnsigned, hwhole, hfraction, hexponent]

/-- What follows the number at the front is no longer than what follows any literal there, and the
digits behind it. -/
theorem length_rest_le (h : p.IsGrammatical) (more : List UInt8) :
    (splitNumber (p.literal ++ more)).rest.length ≤ (splitDigitBytes more).2.length := by
  rw [h.splitNumber_literal]
  simp only [splitUnsigned]
  -- only the last part of the literal can go on
  cases he : p.exponent with
  | some e =>
    obtain ⟨mark, ds⟩ := e
    have hends := h.isShaped.head?_exponentBytes he more
    refine Nat.le_of_eq ?_
    rw [h.isShaped.splitDigitBytes_whole (p.head?_fractionBytes fun b hb => (hends b hb).1),
      h.isShaped.splitFraction_fractionBytes hends, h.splitExponent_exponent he]
  | none =>
    have hnil : p.exponentBytes = [] := by rw [exponentBytes, he]
    rw [hnil, List.nil_append]
    refine Nat.le_trans (length_splitExponent_le _) ?_
    cases hf : p.fraction with
    | some ds =>
      have hends : ∀ b ∈ (p.fractionBytes ++ more).head?, isDigitByte b = false := by
        rw [fractionBytes, hf]
        intro b hb
        cases hb
        rfl
      refine Nat.le_of_eq ?_
      rw [h.isShaped.splitDigitBytes_whole hends, h.isShaped.splitFraction_fraction hf]
    | none =>
      have hnil : p.fractionBytes = [] := by rw [fractionBytes, hf]
      rw [hnil, List.nil_append, splitDigitBytes_digits h.whole]
      exact length_splitFraction_le _

/-- **The longest literal is split off**, of all those at the front. -/
theorem length_literal_le (h : p.IsGrammatical) {bytes : List UInt8} (hp : p.literal <+: bytes) :
    p.literal.length ≤ (splitNumber bytes).literal.length := by
  obtain ⟨more, rfl⟩ := hp
  have hle := Nat.le_trans (h.length_rest_le more) (length_splitDigitBytes_le more)
  have hlen := congrArg List.length (literal_append_rest (p.literal ++ more))
  simp only [List.length_append] at hlen
  omega

end NumberParts.IsGrammatical

end Columnar
