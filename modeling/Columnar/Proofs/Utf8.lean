import Mathlib.Algebra.Group.Nat.Defs
import Columnar.Text.Utf8

/-!
# Encoded text is read back

The bytes of a character take the decoder from between characters to between characters,
and give the character: the bounds on the second byte leave out nothing that a character
can have there.

No character takes more bytes than it is read from, so what comes before the first invalid
piece is shorter than the bytes.

## Main definitions

* `Utf8.Pending.IsWide`, `Utf8.StaysWithin` — characters, pending and complete, that take no more
  bytes than they are read from.

## Main results

* `Utf8.pieces_encode` — the bytes of characters are cut into these characters.
* `Utf8.decodeString?_encodeString`, `Utf8.lossy_encodeString` — the text of the bytes of a text.
* `Utf8.width_le`, `Utf8.validLength_lt` — what is read of bytes is no longer than these.
-/

namespace Columnar.Utf8

theorem toNat_ofNat_of_lt {n : Nat} (h : n < 256) : (UInt8.ofNat n).toNat = n := by
  rw [UInt8.toNat_ofNat']
  exact Nat.mod_eq_of_lt h

/-- A character of one byte. -/
theorem encodeChar_ascii {c : Char} (h : c.toNat < 0x80) :
    String.utf8EncodeChar c = [UInt8.ofNat c.toNat] := by
  simp only [String.utf8EncodeChar, show c.val.toNat = c.toNat from rfl]
  exact if_pos (by omega)

/-- The last byte of a character. -/
theorem piecesFrom_last {code taken b : Nat} {low high : UInt8} (hb : b < 256)
    (hlow : low.toNat ≤ b) (hhigh : b ≤ high.toNat) (rest : List UInt8) :
    piecesFrom (some ⟨code, taken, 0, low, high⟩) (UInt8.ofNat b :: rest)
      = .char (Char.ofNat (code * 64 + (b - 0x80))) :: piecesFrom none rest := by
  have hn := toNat_ofNat_of_lt hb
  have hbounds : low ≤ UInt8.ofNat b ∧ UInt8.ofNat b ≤ high := by
    rw [UInt8.le_iff_toNat_le, UInt8.le_iff_toNat_le, hn]
    exact ⟨hlow, hhigh⟩
  rw [piecesFrom, if_pos hbounds]
  change Piece.char (Char.ofNat (code * 64 + ((UInt8.ofNat b).toNat - 0x80))) :: _ = _
  rw [hn]

/-- A byte of a character that is not the last one. -/
theorem piecesFrom_more {code taken more b : Nat} {low high : UInt8} (hb : b < 256)
    (hlow : low.toNat ≤ b) (hhigh : b ≤ high.toNat) (rest : List UInt8) :
    piecesFrom (some ⟨code, taken, more + 1, low, high⟩) (UInt8.ofNat b :: rest)
      = piecesFrom (some ⟨code * 64 + (b - 0x80), taken + 1, more, 0x80, 0xbf⟩) rest := by
  have hn := toNat_ofNat_of_lt hb
  have hbounds : low ≤ UInt8.ofNat b ∧ UInt8.ofNat b ≤ high := by
    rw [UInt8.le_iff_toNat_le, UInt8.le_iff_toNat_le, hn]
    exact ⟨hlow, hhigh⟩
  rw [piecesFrom, if_pos hbounds]
  change piecesFrom (some ⟨code * 64 + ((UInt8.ofNat b).toNat - 0x80), _, _, _, _⟩) _ = _
  rw [hn]

/-- The first byte of a character of two bytes. -/
theorem lead_two {q : Nat} (hlow : 2 ≤ q) (hhigh : q < 32) :
    lead (UInt8.ofNat (q + 0xc0)) = .opening ⟨q, 1, 0, 0x80, 0xbf⟩ := by
  have hn := toNat_ofNat_of_lt (n := q + 0xc0) (by omega)
  simp only [lead, hn]
  rw [if_neg (by omega), if_neg (by omega), if_pos (by omega), Nat.add_sub_cancel]

/-- The first byte of a character of three bytes; `r` are the bits of the second one.  A code
below U+0800 is shorter, and a surrogate is no character. -/
theorem lead_three {q r : Nat} (hq : q < 16) (hr : r < 64) (hshort : q = 0 → 32 ≤ r)
    (hsurrogate : q = 13 → r < 32) :
    ∃ low high : UInt8, lead (UInt8.ofNat (q + 0xe0)) = .opening ⟨q, 1, 1, low, high⟩ ∧
      low.toNat ≤ r + 0x80 ∧ r + 0x80 ≤ high.toNat := by
  have hn := toNat_ofNat_of_lt (n := q + 0xe0) (by omega)
  have h80 : (0x80 : UInt8).toNat = 0x80 := rfl
  have ha0 : (0xa0 : UInt8).toNat = 0xa0 := rfl
  have hbf : (0xbf : UInt8).toNat = 0xbf := rfl
  have h9f : (0x9f : UInt8).toNat = 0x9f := rfl
  simp only [lead, hn]
  rw [if_neg (by omega), if_neg (by omega), if_neg (by omega)]
  split
  · next h => exact ⟨0xa0, 0xbf, by rw [show q = 0 by omega], by omega, by omega⟩
  · split
    · next h => exact ⟨0x80, 0x9f, by rw [show q = 13 by omega], by omega, by omega⟩
    · rw [if_pos (by omega), Nat.add_sub_cancel]
      exact ⟨0x80, 0xbf, rfl, by omega, by omega⟩

/-- The first byte of a character of four bytes; `r` are the bits of the second one.  A code
below U+10000 is shorter, and U+10FFFF is the last. -/
theorem lead_four {q r : Nat} (hq : q < 5) (hr : r < 64) (hshort : q = 0 → 16 ≤ r)
    (hlast : q = 4 → r < 16) :
    ∃ low high : UInt8, lead (UInt8.ofNat (q + 0xf0)) = .opening ⟨q, 1, 2, low, high⟩ ∧
      low.toNat ≤ r + 0x80 ∧ r + 0x80 ≤ high.toNat := by
  have hn := toNat_ofNat_of_lt (n := q + 0xf0) (by omega)
  have h80 : (0x80 : UInt8).toNat = 0x80 := rfl
  have h90 : (0x90 : UInt8).toNat = 0x90 := rfl
  have hbf : (0xbf : UInt8).toNat = 0xbf := rfl
  have h8f : (0x8f : UInt8).toNat = 0x8f := rfl
  simp only [lead, hn]
  rw [if_neg (by omega), if_neg (by omega), if_neg (by omega), if_neg (by omega),
    if_neg (by omega), if_neg (by omega)]
  split
  · next h => exact ⟨0x90, 0xbf, by rw [show q = 0 by omega], by omega, by omega⟩
  · split
    · rw [Nat.add_sub_cancel]
      exact ⟨0x80, 0xbf, rfl, by omega, by omega⟩
    · rw [if_pos (by omega)]
      exact ⟨0x80, 0x8f, by rw [show q = 4 by omega], by omega, by omega⟩

/-- The bytes of a character are read as the character. -/
theorem piecesFrom_encodeChar (c : Char) (rest : List UInt8) :
    piecesFrom none (String.utf8EncodeChar c ++ rest) = .char c :: piecesFrom none rest := by
  have h80 : (0x80 : UInt8).toNat = 0x80 := rfl
  have hbf : (0xbf : UInt8).toNat = 0xbf := rfl
  have hvalid : c.toNat < 0xd800 ∨ 0xdfff < c.toNat ∧ c.toNat < 0x110000 := c.valid
  have hback := Char.ofNat_toNat c
  simp only [String.utf8EncodeChar, show c.val.toNat = c.toNat from rfl]
  generalize c.toNat = v at *
  split
  · have hn := toNat_ofNat_of_lt (n := v) (by omega)
    rw [List.singleton_append, piecesFrom]
    simp only [lead, hn]
    rw [if_pos (by omega), hback]
  · split
    · rw [List.cons_append, piecesFrom, lead_two (by omega) (by omega)]
      simp only [List.singleton_append]
      rw [piecesFrom_last (by omega) (by omega) (by omega)]
      rw [show v / 64 % 32 * 64 + (v % 64 + 128 - 128) = v by omega, hback]
    · split
      · obtain ⟨low, high, hlead, hlow, hhigh⟩ :=
          lead_three (q := v / 4096 % 16) (r := v / 64 % 64) (by omega) (by omega) (by omega)
            (by omega)
        rw [List.cons_append, piecesFrom, hlead]
        simp only [List.cons_append, List.nil_append]
        rw [piecesFrom_more (by omega) hlow hhigh, piecesFrom_last (by omega) (by omega) (by omega)]
        rw [show (v / 4096 % 16 * 64 + (v / 64 % 64 + 128 - 128)) * 64 + (v % 64 + 128 - 128) = v by
          omega, hback]
      · obtain ⟨low, high, hlead, hlow, hhigh⟩ :=
          lead_four (q := v / 262144 % 8) (r := v / 4096 % 64) (by omega) (by omega) (by omega)
            (by omega)
        rw [List.cons_append, piecesFrom, hlead]
        simp only [List.cons_append, List.nil_append]
        rw [piecesFrom_more (by omega) hlow hhigh, piecesFrom_more (by omega) (by omega) (by omega),
          piecesFrom_last (by omega) (by omega) (by omega)]
        rw [show ((v / 262144 % 8 * 64 + (v / 4096 % 64 + 128 - 128)) * 64
          + (v / 64 % 64 + 128 - 128)) * 64 + (v % 64 + 128 - 128) = v by omega, hback]

/-- The bytes of characters are cut into these characters. -/
theorem pieces_encode (cs : List Char) : pieces (encode cs) = cs.map .char := by
  induction cs with
  | nil => rfl
  | cons c cs ih =>
    rw [pieces, encode_cons, piecesFrom_encodeChar, ← pieces, ih, List.map_cons]

theorem charsOf?_map (cs : List Char) : charsOf? (cs.map .char) = some cs := by
  induction cs with
  | nil => rfl
  | cons c cs ih => rw [List.map_cons, charsOf?, ih, Option.map_some]

theorem decode?_encode (cs : List Char) : decode? (encode cs) = some cs := by
  rw [decode?, pieces_encode, charsOf?_map]

@[simp] theorem decodeString?_encodeString (s : String) :
    decodeString? (encodeString s) = some s := by
  rw [decodeString?, encodeString, decode?_encode]
  simp

@[simp] theorem lossy_encodeString (s : String) : lossy (encodeString s) = s := by
  rw [lossy, encodeString, pieces_encode]
  simp [Function.comp_def, Piece.toChar]

/-! ### Lengths -/

/-- A character of a small code takes few bytes; a code that no character has stands for that of
code 0. -/
theorem utf8Size_ofNat_le {n k : Nat} (h : n < 0x80 ∧ 1 ≤ k ∨ n < 0x800 ∧ 2 ≤ k ∨
    n < 0x10000 ∧ 3 ≤ k ∨ 4 ≤ k) : (Char.ofNat n).utf8Size ≤ k := by
  have hval : (Char.ofNat n).val.toNat ≤ n := by
    by_cases hvalid : n.isValidChar
    · rw [Char.ofNat, dif_pos hvalid]
      exact Nat.le_refl n
    · rw [Char.ofNat, dif_neg hvalid]
      exact Nat.zero_le n
  unfold Char.utf8Size
  simp only [UInt32.le_iff_toNat_le, UInt32.toNat_ofNatLT]
  repeat' split
  all_goals omega

/-- Whatever completes a pending character, it takes no more bytes than it has. -/
structure Pending.IsWide (p : Pending) : Prop where
  /-- Bytes that follow add six bits each. -/
  high : p.high ≤ 0xbf
  /-- The codes that it can come to. -/
  size : ∀ code < (p.code + 1) * 64 ^ (p.more + 1),
    (Char.ofNat code).utf8Size ≤ p.taken + p.more + 1

/-- A first byte is a character of one byte, or only a character of as many bytes as it says can
come of it. -/
def Lead.IsWide : Lead → Prop
  | single c => c.utf8Size ≤ 1
  | opening p => p.IsWide ∧ p.taken = 1
  | stray => True

theorem isWide_lead (b : UInt8) : (lead b).IsWide := by
  have hb := b.toNat_lt
  have hopening : ∀ {code more : Nat} {low high : UInt8}, high ≤ 0xbf →
      ((code + 1) * 64 ^ (more + 1) ≤ 0x800 ∧ more = 0 ∨
        (code + 1) * 64 ^ (more + 1) ≤ 0x10000 ∧ more = 1 ∨ more = 2) →
      (Lead.opening ⟨code, 1, more, low, high⟩).IsWide := by
    intro code more low high hhigh h
    refine ⟨⟨hhigh, fun n hn => utf8Size_ofNat_le ?_⟩, rfl⟩
    simp only at hn ⊢
    omega
  unfold lead
  simp only
  split
  · exact utf8Size_ofNat_le (by omega)
  split
  · trivial
  -- the leads of longer characters, each with its own bounds on the next byte
  iterate 7
    split
    · exact hopening (by decide) (by omega)
  trivial

theorem Pending.IsWide.push_lt {p : Pending} (h : p.IsWide) {b : UInt8} (hb : b ≤ p.high) :
    p.push b < (p.code + 1) * 64 := by
  have hhigh := UInt8.le_iff_toNat_le.mp (UInt8.le_trans hb h.high)
  have hbf : (0xbf : UInt8).toNat = 0xbf := rfl
  unfold push
  omega

/-- One more byte leaves less to come. -/
theorem Pending.IsWide.step {p : Pending} (h : p.IsWide) {b : UInt8} (hb : b ≤ p.high) {more : Nat}
    (hmore : p.more = more + 1) : IsWide ⟨p.push b, p.taken + 1, more, 0x80, 0xbf⟩ := by
  refine ⟨UInt8.le_refl _, fun code hcode => ?_⟩
  have hlt : code < (p.code + 1) * 64 ^ (p.more + 1) := by
    refine Nat.lt_of_lt_of_le hcode ?_
    rw [hmore, Nat.pow_succ' (n := more + 1), ← Nat.mul_assoc]
    exact Nat.mul_le_mul_right _ (h.push_lt hb)
  have hsize := h.size code hlt
  simp only
  omega

/-- The characters of some pieces take at most `n` bytes, and fewer if an invalid piece comes
behind them. -/
def StaysWithin (ps : List Piece) (n : Nat) : Prop :=
  validPieces ps ≤ n ∧ (charsOf? ps = none → validPieces ps < n)

theorem staysWithin_char {c : Char} {ps : List Piece} {n k : Nat} (hc : c.utf8Size ≤ k)
    (h : StaysWithin ps n) : StaysWithin (.char c :: ps) (n + k) := by
  obtain ⟨hle, hlt⟩ := h
  rw [StaysWithin, validPieces, charsOf?, Option.map_eq_none_iff]
  refine ⟨by omega, fun hnone => ?_⟩
  have := hlt hnone
  omega

theorem staysWithin_invalid (w : Nat) (ps : List Piece) {n : Nat} (hn : 0 < n) :
    StaysWithin (.invalid w :: ps) n :=
  ⟨Nat.zero_le _, fun _ => hn⟩

/-- The pieces of bytes take no more than these, together with those that are pending. -/
theorem staysWithin_piecesFrom (bytes : List UInt8) :
    StaysWithin (piecesFrom none bytes) bytes.length ∧
      ∀ p : Pending, p.IsWide → 0 < p.taken →
        StaysWithin (piecesFrom (some p) bytes) (bytes.length + p.taken) := by
  induction bytes with
  | nil => exact ⟨⟨Nat.le_refl 0, nofun⟩, fun p _ hp => staysWithin_invalid _ _ (by omega)⟩
  | cons b rest ih =>
    obtain ⟨hnone, hsome⟩ := ih
    rw [List.length_cons]
    constructor
    · have hlead := isWide_lead b
      rw [piecesFrom]
      cases hb : lead b with
      | single c =>
        rw [hb] at hlead
        exact staysWithin_char hlead hnone
      | opening p =>
        rw [hb] at hlead
        obtain ⟨hwide, htaken⟩ := hlead
        exact htaken ▸ hsome p hwide (by omega)
      | stray => exact staysWithin_invalid 1 _ (Nat.succ_pos _)
    · intro p hwide hp
      rw [piecesFrom]
      split
      · next hb =>
        cases hmore : p.more with
        | zero =>
          have hsize := hwide.size (p.push b) (by
            rw [hmore, Nat.zero_add, Nat.pow_one]
            exact hwide.push_lt hb.2)
          rw [show rest.length + 1 + p.taken = rest.length + (p.taken + p.more + 1) by omega]
          exact staysWithin_char hsize hnone
        | succ more =>
          have hrest := hsome _ (hwide.step hb.2 hmore) (Nat.succ_pos _)
          rwa [show rest.length + 1 + p.taken = rest.length + (p.taken + 1) by omega]
      · exact staysWithin_invalid _ _ (by omega)

theorem width_eq_validPieces {ps : List Piece} {cs : List Char} (h : charsOf? ps = some cs) :
    width cs = validPieces ps := by
  induction ps generalizing cs with
  | nil =>
    cases h
    rfl
  | cons p ps ih =>
    cases p with
    | invalid => cases h
    | char c =>
      obtain ⟨cs', hcs, rfl⟩ := Option.map_eq_some_iff.mp h
      rw [width, validPieces, ih hcs]

/-- The characters of bytes take no more than these. -/
theorem width_le {bytes : List UInt8} {cs : List Char} (h : decode? bytes = some cs) :
    width cs ≤ bytes.length := by
  rw [width_eq_validPieces h]
  exact (staysWithin_piecesFrom bytes).1.1

/-- An invalid piece is among the bytes. -/
theorem validLength_lt {bytes : List UInt8} (h : decode? bytes = none) :
    validLength bytes < bytes.length :=
  (staysWithin_piecesFrom bytes).1.2 h

/-- A character takes at least a byte. -/
theorem add_width_drop_le {k : Nat} {cs : List Char} (h : k ≤ cs.length) :
    k + width (cs.drop k) ≤ width cs := by
  induction cs generalizing k with
  | nil =>
    obtain rfl : k = 0 := Nat.le_zero.mp h
    exact Nat.le_refl _
  | cons c cs ih =>
    cases k with
    | zero => exact Nat.le_of_eq (Nat.zero_add _)
    | succ k =>
      have hrest := ih (Nat.le_of_succ_le_succ h)
      have hpos := c.utf8Size_pos
      rw [List.drop_succ_cons, width]
      omega

end Columnar.Utf8
