import Columnar.Proofs.Json.Content
import Columnar.Proofs.Json.NumberParts

/-!
# How tokens are spelled

A token is spelled by a mark, a word, a string between quotes or a literal of the grammar of
numbers.  The token that is found at the front of some bytes is spelled there, and no longer
spelling of a token starts there.

## Main definitions

* `Spells` — what a token looks like in a text.

## Main results

* `Spells.scanBody` — a token that does not go on is found.
* `exists_of_scanToken` — **the token that is found is spelled** behind the blanks.
* `Spells.length_le_of_scanBody` — **it is the longest one.**
* `Spells.unique` — a spelling is one of a single token.
-/

namespace Columnar

/-- The bytes of the words. -/
def wordBytes : List (Token × List UInt8) :=
  [(.null, [0x6e, 0x75, 0x6c, 0x6c]), (.bool true, [0x74, 0x72, 0x75, 0x65]),
    (.bool false, [0x66, 0x61, 0x6c, 0x73, 0x65])]

/-- What a token looks like in a text. -/
inductive Spells : Token → List UInt8 → Prop
  /-- A mark is one byte. -/
  | mark {t : Token} {b : UInt8} (h : markOf? b = some t) : Spells t [b]
  /-- A word. -/
  | word {t : Token} {text : List UInt8} (h : (t, text) ∈ wordBytes) : Spells t text
  /-- A string stands between quotes. -/
  | string {content : List UInt8} {hasEscapes : Bool} (h : StringBody content hasEscapes) :
      Spells (.string content hasEscapes) (Window.quote :: (content ++ [Window.quote]))
  /-- A number stands as it is. -/
  | number {p : NumberParts} (h : p.IsGrammatical) : Spells (.number p.literal p.shape) p.literal

/-- Whether a token is a number, and so may go on with what follows it. -/
def Token.isNumber : Token → Bool
  | .number _ _ => true
  | _ => false

/-! ### Marks and words -/

/-- The bytes of the marks. -/
def markBytes : List (Token × UInt8) :=
  [(.objectStart, 0x7b), (.objectEnd, 0x7d), (.arrayStart, 0x5b), (.arrayEnd, 0x5d),
    (.colon, 0x3a), (.comma, 0x2c)]

/-- What holds of the six marks holds of every mark. -/
theorem mem_markBytes {t : Token} {b : UInt8} (h : markOf? b = some t) : (t, b) ∈ markBytes := by
  unfold markOf? at h
  repeat' split at h
  case isFalse => cases h
  all_goals
    subst b
    cases h
    decide

theorem wordBytes_cases {t : Token} {text : List UInt8} (h : (t, text) ∈ wordBytes) :
    t = .null ∧ text = [0x6e, 0x75, 0x6c, 0x6c] ∨ t = .bool true ∧ text = [0x74, 0x72, 0x75, 0x65] ∨
      t = .bool false ∧ text = [0x66, 0x61, 0x6c, 0x73, 0x65] := by
  simpa [wordBytes] using h

/-! ### First bytes -/

/-- The bytes between tokens. -/
theorem eq_of_isBlankByte {b : UInt8} (h : isBlankByte b = true) :
    b = 0x20 ∨ b = 0x09 ∨ b = 0x0a ∨ b = 0x0d := by
  simpa [isBlankByte, or_assoc] using h

/-- A number starts with a sign or a digit. -/
def isNumberStart (b : UInt8) : Prop := b = 0x2d ∨ isDigitByte b = true

theorem NumberParts.IsGrammatical.isNumberStart {p : NumberParts} (h : p.IsGrammatical)
    (rest : List UInt8) : ∃ b more, p.literal ++ rest = b :: more ∧ Columnar.isNumberStart b := by
  obtain ⟨b, ds, hb⟩ := List.exists_cons_of_ne_nil h.whole_ne_nil
  unfold literal signBytes
  cases p.negative with
  | true => exact ⟨0x2d, _, rfl, .inl rfl⟩
  | false =>
    rw [hb]
    exact ⟨b, _, rfl, .inr (h.whole b (by rw [hb]; exact List.mem_cons_self))⟩

theorem isBlankByte_of_isNumberStart {b : UInt8} (h : isNumberStart b) : isBlankByte b = false := by
  cases hblank : isBlankByte b with
  | false => rfl
  | true =>
    exfalso
    revert h
    unfold isNumberStart
    rcases eq_of_isBlankByte hblank with rfl | rfl | rfl | rfl <;> decide

theorem markOf?_of_isNumberStart {b : UInt8} (h : isNumberStart b) : markOf? b = none := by
  cases hm : markOf? b with
  | none => rfl
  | some t =>
    have hmarks : ∀ m ∈ markBytes, ¬ isNumberStart m.2 := by
      unfold isNumberStart
      decide
    exact absurd h (hmarks _ (mem_markBytes hm))

theorem ne_quote_of_isNumberStart {b : UInt8} (h : isNumberStart b) : b ≠ Window.quote := by
  rintro rfl
  revert h
  unfold isNumberStart
  decide

theorem scanBody_mark {t : Token} {b : UInt8} (h : markOf? b = some t) (atEof : Bool)
    (skipped : Nat) (rest : List UInt8) :
    scanBody atEof skipped (b :: rest) = .token t skipped 1 := by
  rw [scanBody, h]

theorem scanBody_quote (atEof : Bool) (skipped : Nat) (rest : List UInt8) :
    scanBody atEof skipped (Window.quote :: rest) = scanString atEof skipped rest := rfl

theorem scanBody_number {b : UInt8} (h : isNumberStart b) (atEof : Bool) (skipped : Nat)
    (rest : List UInt8) :
    scanBody atEof skipped (b :: rest) = scanNumber atEof skipped (b :: rest) := by
  rw [scanBody, markOf?_of_isNumberStart h]
  exact (if_neg (ne_quote_of_isNumberStart h)).trans (if_pos h)

theorem scanBody_word {t : Token} {b : UInt8} {ws : List UInt8} (h : (t, b :: ws) ∈ wordBytes)
    (atEof : Bool) (skipped : Nat) (rest : List UInt8) : scanBody atEof skipped (b :: rest)
      = scanWord atEof t skipped (ws.length + 1) 1 ws rest := by
  rcases wordBytes_cases h with ⟨rfl, hw⟩ | ⟨rfl, hw⟩ | ⟨rfl, hw⟩
  all_goals
    cases hw
    rfl

/-- What the first byte says of a token. -/
inductive TokenStart (b : UInt8) : Prop
  /-- It is a mark. -/
  | mark {t : Token} (h : markOf? b = some t)
  /-- A string follows. -/
  | quote (h : b = Window.quote)
  /-- It is part of a number. -/
  | number (h : isNumberStart b)
  /-- It is part of a word. -/
  | word {t : Token} {ws : List UInt8} (h : (t, b :: ws) ∈ wordBytes)
  /-- No token starts with it. -/
  | none (h : ∀ atEof skipped rest, scanBody atEof skipped (b :: rest)
      = .error skipped (.unexpectedChar (charOfByte b)) skipped 1)

theorem tokenStart (b : UInt8) : TokenStart b := by
  cases hm : markOf? b with
  | some t => exact .mark hm
  | none =>
    by_cases hq : b = Window.quote
    · exact .quote hq
    by_cases hn : b = 0x2d ∨ isDigitByte b = true
    · exact .number hn
    by_cases ht : b = 0x74
    · subst ht
      exact .word (.tail _ (.head _))
    by_cases hf : b = 0x66
    · subst hf
      exact .word (.tail _ (.tail _ (.head _)))
    by_cases hu : b = 0x6e
    · subst hu
      exact .word (.head _)
    refine .none fun atEof skipped rest => ?_
    rw [scanBody, hm]
    exact (if_neg hq).trans ((if_neg hn).trans ((if_neg ht).trans ((if_neg hf).trans (if_neg hu))))

/-- No token starts with a blank. -/
theorem Spells.exists_cons {t : Token} {text : List UInt8} (h : Spells t text) :
    ∃ b more, text = b :: more ∧ isBlankByte b = false := by
  cases h with
  | @mark _ b h =>
    have hmarks : ∀ m ∈ markBytes, isBlankByte m.2 = false := by decide
    exact ⟨b, [], rfl, hmarks _ (mem_markBytes h)⟩
  | word h =>
    rcases wordBytes_cases h with ⟨-, rfl⟩ | ⟨-, rfl⟩ | ⟨-, rfl⟩ <;> exact ⟨_, _, rfl, rfl⟩
  | string h => exact ⟨_, _, rfl, rfl⟩
  | @number p h =>
    obtain ⟨b, more, heq, hb⟩ := h.isNumberStart []
    rw [List.append_nil] at heq
    exact ⟨b, more, heq, isBlankByte_of_isNumberStart hb⟩

/-! ### Words -/

theorem scanWord_spelled (atEof : Bool) (t : Token) (skipped total seen : Nat)
    (ws rest : List UInt8) :
    scanWord atEof t skipped total seen ws (ws ++ rest) = .token t skipped total := by
  induction ws generalizing seen with
  | nil => rfl
  | cons w ws ih => exact (if_pos rfl).trans (ih (seen + 1))

theorem exists_of_scanWord {atEof : Bool} {t u : Token} {skipped total seen s w : Nat}
    {ws bytes : List UInt8} (h : scanWord atEof t skipped total seen ws bytes = .token u s w) :
    u = t ∧ s = skipped ∧ w = total ∧ ws <+: bytes := by
  induction ws generalizing seen bytes with
  | nil =>
    cases h
    exact ⟨rfl, rfl, rfl, List.nil_prefix⟩
  | cons c ws ih =>
    cases bytes with
    | nil =>
      simp only [scanWord, touchingEnd] at h
      split at h <;> cases h
    | cons b bytes =>
      simp only [scanWord] at h
      split at h
      · next hb =>
        obtain ⟨hu, hs, hw, hpre⟩ := ih h
        exact ⟨hu, hs, hw, List.cons_prefix_cons.mpr ⟨hb.symm, hpre⟩⟩
      · cases h

/-! ### A token is found where it is spelled -/

theorem StringBody.scanString {content : List UInt8} {hasEscapes : Bool}
    (h : StringBody content hasEscapes) (atEof : Bool) (skipped : Nat) (rest : List UInt8) :
    Columnar.scanString atEof skipped (content ++ Window.quote :: rest)
      = .token (.string content hasEscapes) skipped (content.length + 2) := by
  rw [Columnar.scanString, scanContent_eq, h.scanContentByByte]

theorem NumberParts.IsGrammatical.flaw? {p : NumberParts} (h : p.IsGrammatical)
    (rest : List UInt8) : NumberParts.flaw? { p with rest } = none :=
  flaw?_eq_none_iff.mpr ⟨h.whole_ne_nil, h.zero, h.fraction_ne_nil, h.exponent_ne_nil⟩

/-- A token is found, unless it is a number and goes on. -/
theorem Spells.scanBody {t : Token} {text : List UInt8} (h : Spells t text) {rest : List UInt8}
    (hrest : t.isNumber = true → ∀ b ∈ rest.head?, continuesNumber b = false) (skipped : Nat) :
    Columnar.scanBody true skipped (text ++ rest) = .token t skipped text.length := by
  cases h with
  | mark h => exact scanBody_mark h _ _ _
  | word h =>
    rcases wordBytes_cases h with ⟨rfl, rfl⟩ | ⟨rfl, rfl⟩ | ⟨rfl, rfl⟩
    all_goals exact scanWord_spelled _ _ _ _ _ _ _
  | string h =>
    rw [List.cons_append, List.append_assoc, scanBody_quote, List.singleton_append, h.scanString,
      List.length_cons, List.length_append, List.length_singleton]
  | @number p h =>
    obtain ⟨b, more, heq, hb⟩ := h.isNumberStart rest
    rw [heq, scanBody_number hb, ← heq, scanNumber, h.splitNumber_eq (hrest rfl)]
    simp only [not_true_eq_false, and_false, if_false, h.flaw?]
    rfl

/-- A spelling is one of a single token. -/
theorem Spells.unique {t u : Token} {text : List UInt8} (h : Spells t text) (h' : Spells u text) :
    t = u := by
  have hnil : ∀ b ∈ ([] : List UInt8).head?, continuesNumber b = false := nofun
  have ht := h.scanBody (fun _ => hnil) 0
  rw [h'.scanBody fun _ => hnil] at ht
  cases ht
  rfl

/-! ### A token that is found is spelled -/

theorem exists_of_scanNumber {atEof : Bool} {skipped s w : Nat} {bytes : List UInt8} {t : Token}
    (h : scanNumber atEof skipped bytes = .token t s w) :
    s = skipped ∧ w = (splitNumber bytes).literal.length ∧ (splitNumber bytes).IsGrammatical ∧
      t = .number (splitNumber bytes).literal (splitNumber bytes).shape := by
  simp only [scanNumber] at h
  split at h
  · cases h
  · split at h
    · next hflaw =>
      cases h
      exact ⟨rfl, rfl, (isGrammatical_splitNumber_iff bytes).mpr hflaw, rfl⟩
    · split at h <;> cases h

theorem exists_of_scanString {atEof : Bool} {skipped s w : Nat} {rest : List UInt8} {t : Token}
    (h : scanString atEof skipped rest = .token t s w) :
    s = skipped ∧ ∃ content hasEscapes more, StringBody content hasEscapes ∧
      rest = content ++ Window.quote :: more ∧ t = .string content hasEscapes ∧
      w = content.length + 2 := by
  simp only [scanString] at h
  split at h
  · next content hasEscapes hc =>
    cases h
    rw [scanContent_eq, scanContentByByte_eq_closed_iff] at hc
    obtain ⟨hbody, more, hrest⟩ := hc
    exact ⟨rfl, content, hasEscapes, more, hbody, hrest, rfl, rfl⟩
  · unfold touchingEnd at h
    split at h <;> cases h
  · cases h

theorem exists_of_scanBody {atEof : Bool} {skipped s w : Nat} {bytes : List UInt8} {t : Token}
    (h : scanBody atEof skipped bytes = .token t s w) :
    s = skipped ∧ ∃ text rest, bytes = text ++ rest ∧ Spells t text ∧ text.length = w := by
  cases bytes with
  | nil => cases h
  | cons b rest =>
    cases tokenStart b with
    | mark hm =>
      rw [scanBody_mark hm] at h
      cases h
      exact ⟨rfl, [b], rest, rfl, .mark hm, rfl⟩
    | quote hq =>
      subst hq
      obtain ⟨rfl, content, hasEscapes, more, hbody, rfl, rfl, rfl⟩ := exists_of_scanString h
      exact ⟨rfl, _, more, by simp, .string hbody, by simp⟩
    | number hn =>
      rw [scanBody_number hn] at h
      obtain ⟨rfl, rfl, hp, rfl⟩ := exists_of_scanNumber h
      exact ⟨rfl, _, _, (literal_append_rest (b :: rest)).symm, .number hp, rfl⟩
    | @word u ws hw =>
      rw [scanBody_word hw] at h
      obtain ⟨rfl, rfl, rfl, more, rfl⟩ := exists_of_scanWord h
      exact ⟨rfl, b :: ws, more, rfl, .word hw, rfl⟩
    | none hnone =>
      rw [hnone] at h
      cases h

/-- **The token that is found is spelled** behind the blanks. -/
theorem exists_of_scanToken {atEof : Bool} {s w : Nat} {bytes : List UInt8} {t : Token}
    (h : scanToken atEof bytes = .token t s w) :
    ∃ blanks text rest, bytes = blanks ++ (text ++ rest) ∧ (∀ b ∈ blanks, isBlankByte b = true) ∧
      Spells t text ∧ blanks.length = s ∧ text.length = w := by
  obtain ⟨rfl, text, rest, heq, hspells, hw⟩ := exists_of_scanBody h
  refine ⟨bytes.takeWhile isBlankByte, text, rest, ?_, ?_, hspells, rfl, hw⟩
  · rw [← heq, List.takeWhile_append_dropWhile]
  · exact fun b hb => List.all_eq_true.mp List.all_takeWhile b hb

/-- **It is the longest one**: no longer spelling of a token starts there. -/
theorem Spells.length_le_of_scanBody {atEof : Bool} {skipped s w : Nat} {bytes text : List UInt8}
    {t u : Token} (h : Columnar.scanBody atEof skipped bytes = .token t s w) (hu : Spells u text)
    (hpre : text <+: bytes) : text.length ≤ w := by
  obtain ⟨rest, rfl⟩ := hpre
  cases hu with
  | mark hm => exact width_pos_of_scanBody h
  | word hm =>
    rcases wordBytes_cases hm with ⟨rfl, rfl⟩ | ⟨rfl, rfl⟩ | ⟨rfl, rfl⟩
    all_goals
      obtain ⟨-, -, rfl, -⟩ := exists_of_scanWord h
      exact Nat.le_refl _
  | string hbody =>
    rw [List.cons_append, List.append_assoc, scanBody_quote, List.singleton_append,
      hbody.scanString] at h
    cases h
    simp
  | @number p hp =>
    obtain ⟨b, more, heq, hb⟩ := hp.isNumberStart rest
    rw [heq, scanBody_number hb, ← heq] at h
    obtain ⟨-, rfl, -, -⟩ := exists_of_scanNumber h
    exact hp.length_literal_le (List.prefix_append _ _)

end Columnar
