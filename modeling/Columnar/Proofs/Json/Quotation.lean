import Columnar.Json.Call
import Columnar.Proofs.Json.Tree
import Columnar.Proofs.Json.Spelling
import Columnar.Proofs.Utf8

/-!
# Strings as they are written

Between its quotes, a string that is written has each character as it is, behind a backslash, or
by its code.  None of that ends the string early, and the escapes stand for the characters they
were written for; so the string is read back.

## Main definitions

* `Escaped.Stands` — the ways in which a text stands for a character.

## Main results

* `StringContent.unescape_flatMap_char` — the escapes stand for the characters.
* `exists_jsonString` — **a string that is written is read back.**
-/

namespace Columnar

/-! ### Characters between quotes -/

namespace Escaped

/-- A character that may stand between quotes as it is. -/
def IsPlain (c : Char) : Prop := c ≠ '"' ∧ c ≠ '\\' ∧ 0x20 ≤ c.toNat

instance : DecidablePred IsPlain := fun _ => inferInstanceAs (Decidable (_ ∧ _))

/-- How a character stands between quotes. -/
inductive Stands (c : Char) : List Char → Prop
  /-- As it is. -/
  | plain (h : IsPlain c) : Stands c [c]
  /-- As a letter behind a backslash. -/
  | short {e : Char} (he : short? e = some c) (hlt : e.toNat < 0x80) : Stands c ['\\', e]
  /-- By its code. -/
  | code {n : Nat} (hc : Char.ofNat n = c) (hn : n < 0x80) : Stands c ('\\' :: 'u' :: hexPadded 4 n)

/-- A character is written in one of these ways, as long as all controls are hidden and nothing
past the delete character is. -/
theorem stands_char_of {hidden : Char → Bool} {c : Char}
    (hshown : hidden c = false → 0x20 ≤ c.toNat) (hsmall : hidden c = true → c.toNat < 0x80) :
    Stands c (char hidden c) := by
  unfold char
  split_ifs with hquote hback hnew hreturn htab hbell hfeed hhidden
  · exact .short (by rw [hquote]; rfl) (by decide)
  · exact .short (by rw [hback]; rfl) (by decide)
  · exact .short (by rw [hnew]; rfl) (by decide)
  · exact .short (by rw [hreturn]; rfl) (by decide)
  · exact .short (by rw [htab]; rfl) (by decide)
  · exact .short (by rw [hbell]; rfl) (by decide)
  · exact .short (by rw [hfeed]; rfl) (by decide)
  · exact .code (Char.ofNat_toNat c) (hsmall hhidden)
  · exact .plain ⟨hquote, hback, hshown (Bool.eq_false_iff.mpr hhidden)⟩

/-- A character stands between quotes where controls and the delete character are hidden. -/
theorem stands_char (c : Char) : Stands c (char isControlOrDelete c) := by
  apply stands_char_of
  · simp only [isControlOrDelete, decide_eq_false_iff_not]
    omega
  · simp only [isControlOrDelete, decide_eq_true_eq]
    omega

/-- A character stands between quotes where only controls are hidden. -/
theorem stands_char_isControl (c : Char) : Stands c (char isControl c) := by
  apply stands_char_of
  · simp only [isControl, decide_eq_false_iff_not]
    omega
  · simp only [isControl, decide_eq_true_eq]
    omega

/-- The four digits of a small code have its value. -/
theorem exists_hexPadded {n : Nat} (h : n < 0x80) : ∃ a b c d, hexPadded 4 n = [a, b, c, d] ∧
    hexFour? a b c d = some n ∧ ∀ x ∈ [a, b, c, d], IsPlain x := by
  have hdigits : ∀ k < 0x80,
      hexPadded 4 k = ['0', '0', Nat.digitChar (k / 16), Nat.digitChar (k % 16)] ∧
        hexFour? '0' '0' (Nat.digitChar (k / 16)) (Nat.digitChar (k % 16)) = some k := by
    decide +kernel
  have hplain : ∀ k < 16, IsPlain (Nat.digitChar k) := by decide
  refine ⟨_, _, _, _, (hdigits n h).1, (hdigits n h).2, ?_⟩
  have hzero : IsPlain '0' := by decide
  simpa using ⟨hzero, hplain (n / 16) (by omega), hplain (n % 16) (by omega)⟩

end Escaped

/-! ### What the escapes stand for -/

namespace StringContent

/-- An escape is replaced by its character. -/
theorem unescape_escape {e rest : List Char} {x : Char} (h : escape (e ++ rest) = .ok (x, e.length))
    (offset : Nat) : unescape offset ('\\' :: e ++ rest)
      = (unescape (offset + 1 + e.length) rest).map (x :: ·) := by
  rw [List.cons_append, unescape, if_pos rfl, h]
  simp only [List.drop_left]

/-- What stands for a character is replaced by it. -/
theorem unescape_stands {c : Char} {text : List Char} (h : Escaped.Stands c text) (rest : List Char)
    (offset : Nat) :
    ∃ offset', unescape offset (text ++ rest) = (unescape offset' rest).map (c :: ·) := by
  cases h with
  | plain h => exact ⟨_, unescape_cons_of_ne h.2.1 offset rest⟩
  | @short e he hlt =>
    refine ⟨_, unescape_escape (e := [e]) ?_ offset⟩
    rw [List.singleton_append, escape, he]
    rfl
  | @code n hc hn =>
    obtain ⟨a, b, c', d, hfour, hvalue, -⟩ := Escaped.exists_hexPadded hn
    have hhigh : Escaped.isHighSurrogate n = false := decide_eq_false (by omega)
    have hlow : Escaped.isLowSurrogate n = false := decide_eq_false (by omega)
    have hcode : codeEscape? (a :: b :: c' :: d :: rest) = some (c, 4) := by
      rw [codeEscape?, hvalue]
      simp only [hhigh, hlow, Bool.false_eq_true, if_false, hc]
    have hescape : escape ('u' :: a :: b :: c' :: d :: rest) = .ok (c, 5) := by
      have hshort : Escaped.short? 'u' = none := rfl
      rw [escape, hshort]
      simp only [if_true, hcode]
    rw [hfour]
    exact ⟨_, unescape_escape (e := ['u', a, b, c', d]) hescape offset⟩

/-- The escapes stand for the characters. -/
theorem unescape_flatMap_char (cs : List Char) (offset : Nat) :
    unescape offset (cs.flatMap (Escaped.char Escaped.isControlOrDelete)) = .ok cs := by
  induction cs generalizing offset with
  | nil => exact unescape_nil offset
  | cons c cs ih =>
    obtain ⟨offset', heq⟩ := unescape_stands (Escaped.stands_char c)
      (cs.flatMap (Escaped.char Escaped.isControlOrDelete)) offset
    rw [List.flatMap_cons, heq, ih]
    rfl

/-- The string that is written is read back, with the escapes or, if there are none, as it is. -/
theorem decode_flatMap_char {cs : List Char} {hasEscapes : Bool} (offset : Nat)
    (h : hasEscapes = false → cs.flatMap (Escaped.char Escaped.isControlOrDelete) = cs) :
    decode offset (Utf8.encode (cs.flatMap (Escaped.char Escaped.isControlOrDelete))) hasEscapes
      = .ok (String.ofList cs) := by
  rw [decode, Utf8.decode?_encode]
  cases hasEscapes with
  | true =>
    simp only [if_true, unescape_flatMap_char]
    rfl
  | false => simp only [Bool.false_eq_true, if_false, h]

end StringContent

/-! ### The bytes between the quotes -/

/-- The bytes of a character that is no quote, backslash or control. -/
theorem plain_encodeChar {c : Char} (h : Escaped.IsPlain c) :
    ∀ b ∈ String.utf8EncodeChar c, b ≠ Window.quote ∧ b ≠ Window.backslash ∧ ¬ b < 0x20 := by
  obtain ⟨hq, hb, hc⟩ := h
  have hquote : c.toNat ≠ 0x22 := fun h => hq (Char.toNat_inj.mp h)
  have hback : c.toNat ≠ 0x5c := fun h => hb (Char.toNat_inj.mp h)
  have hplain : ∀ n : Nat, n < 256 → 0x20 ≤ n → n ≠ 0x22 → n ≠ 0x5c → ∀ b, b = UInt8.ofNat n →
      b ≠ Window.quote ∧ b ≠ Window.backslash ∧ ¬ b < 0x20 := by
    rintro n hlt hlow hnq hnb b rfl
    have hn := Utf8.toNat_ofNat_of_lt hlt
    refine ⟨fun h => hnq ?_, fun h => hnb ?_, ?_⟩
    · rw [← hn, h]
      rfl
    · rw [← hn, h]
      rfl
    · rw [UInt8.lt_iff_toNat_lt, hn]
      exact Nat.not_lt.mpr hlow
  intro b hbyte
  simp only [String.utf8EncodeChar, show c.val.toNat = c.toNat from rfl] at hbyte
  split_ifs at hbyte
  · exact hplain _ (by omega) hc hquote hback b (List.mem_singleton.mp hbyte)
  -- all bytes of a longer character have the highest bit
  all_goals
    simp only [List.mem_cons, List.not_mem_nil, or_false] at hbyte
  · rcases hbyte with hbyte | hbyte
    all_goals exact hplain _ (by omega) (by omega) (by omega) (by omega) b hbyte
  · rcases hbyte with hbyte | hbyte | hbyte
    all_goals exact hplain _ (by omega) (by omega) (by omega) (by omega) b hbyte
  · rcases hbyte with hbyte | hbyte | hbyte | hbyte
    all_goals exact hplain _ (by omega) (by omega) (by omega) (by omega) b hbyte

theorem plain_encode {cs : List Char} (h : ∀ c ∈ cs, Escaped.IsPlain c) :
    ∀ b ∈ Utf8.encode cs, b ≠ Window.quote ∧ b ≠ Window.backslash ∧ ¬ b < 0x20 := by
  intro b hb
  obtain ⟨c, hc, hbyte⟩ := List.mem_flatMap.mp hb
  exact plain_encodeChar (h c hc) b hbyte

namespace StringBody

variable {front content : List UInt8} {hasEscapes : Bool}

/-- Bytes that stand for themselves, before others. -/
theorem plain_append (h : ∀ b ∈ front, b ≠ Window.quote ∧ b ≠ Window.backslash ∧ ¬ b < 0x20)
    (hc : StringBody content hasEscapes) : StringBody (front ++ content) hasEscapes := by
  induction front with
  | nil => exact hc
  | cons b front ih =>
    obtain ⟨hq, hb, hcontrol⟩ := h b List.mem_cons_self
    exact .plain hq hb hcontrol (ih fun b hb => h b (List.mem_cons_of_mem _ hb))

/-- What stands for a character may stand in a string; without a backslash it is the character. -/
theorem stands_append {c : Char} {text : List Char} (h : Escaped.Stands c text)
    (hc : StringBody content hasEscapes) : ∃ hasEscapes',
      StringBody (Utf8.encode text ++ content) hasEscapes' ∧
        (hasEscapes' = false → hasEscapes = false ∧ text = [c]) := by
  cases h with
  | plain h =>
    have hplain : ∀ x ∈ [c], Escaped.IsPlain x := by simpa using h
    exact ⟨hasEscapes, plain_append (plain_encode hplain) hc, fun h => ⟨h, rfl⟩⟩
  | @short e he hlt =>
    refine ⟨true, ?_, nofun⟩
    rw [Utf8.encode_cons, Utf8.encode_cons, Utf8.encodeChar_ascii hlt]
    exact .escaped hc
  | @code n hn hlt =>
    obtain ⟨a, b, c', d, hfour, -, hplain⟩ := Escaped.exists_hexPadded hlt
    refine ⟨true, ?_, nofun⟩
    rw [hfour]
    exact .escaped (plain_append (plain_encode hplain) hc)

/-- A string that is written ends at its last quote. -/
theorem exists_flatMap_char (cs : List Char) : ∃ hasEscapes,
    StringBody (Utf8.encode (cs.flatMap (Escaped.char Escaped.isControlOrDelete))) hasEscapes ∧
      (hasEscapes = false → cs.flatMap (Escaped.char Escaped.isControlOrDelete) = cs) := by
  induction cs with
  | nil => exact ⟨false, .nil, fun _ => rfl⟩
  | cons c cs ih =>
    obtain ⟨e, hbody, hplain⟩ := ih
    obtain ⟨e', hbody', hplain'⟩ := stands_append (Escaped.stands_char c) hbody
    refine ⟨e', ?_, fun he => ?_⟩
    · rwa [List.flatMap_cons, Utf8.encode_append]
    · obtain ⟨hfalse, hchar⟩ := hplain' he
      rw [List.flatMap_cons, hchar, hplain hfalse, List.singleton_append]

end StringBody

/-! ### Strings -/

/-- **A string that is written is read back.** -/
theorem exists_jsonString (s : String) : ∃ j : JsonString,
    Spells j.token (Utf8.encode (quotedText s)) ∧ j.text? = some s := by
  obtain ⟨hasEscapes, hbody, hplain⟩ := StringBody.exists_flatMap_char s.toList
  refine ⟨⟨_, hasEscapes, hbody⟩, ?_, ?_⟩
  · have htext : Utf8.encode (quotedText s) = Window.quote ::
        (Utf8.encode (s.toList.flatMap (Escaped.char Escaped.isControlOrDelete))
          ++ [Window.quote]) := by
      rw [quotedText, Escaped.string, List.cons_append, Utf8.encode_cons, Utf8.encode_append]
      rfl
    rw [htext]
    exact .string hbody
  · rw [JsonString.text?, StringContent.decode_flatMap_char 0 hplain, String.ofList_toList]
    rfl

end Columnar
