import Columnar.Proofs.Utf8

/-!
# Valid bytes are encoded text

What is decoded from bytes is what they encode.  A pending character knows the bytes that it has
been read from, and whatever bytes complete it within its bounds, these together are the bytes of
the character: the bounds on the second byte let nothing in that is not the shortest form of a
character.  So the bytes before the first invalid piece are those of the characters before it, and
no longer front of the bytes is encoded text.

## Main definitions

* `Utf8.Pending.Reads` — the bytes that a pending character has been read from.
* `Utf8.leading` — the characters before the first invalid piece.

## Main results

* `Utf8.encode_of_decode?` — **what is decoded is encoded to the same bytes.**
* `Utf8.exists_encode_eq_take`, `Utf8.length_encode_le` — **the valid front is the longest one.**
-/

namespace Columnar.Utf8

/-! ### Characters of codes -/

theorem toNat_charOfNat {n : Nat} (h : n < 0xd800 ∨ 0xdfff < n ∧ n < 0x110000) :
    (Char.ofNat n).toNat = n := by
  have hvalid : n.isValidChar := h
  rw [Char.ofNat, dif_pos hvalid]
  rfl

/-- A character of two bytes, by the bits in each. -/
theorem encodeChar_two {q r : Nat} (hq : 2 ≤ q) (hq' : q < 32) (hr : r < 64) :
    String.utf8EncodeChar (Char.ofNat (q * 64 + r))
      = [UInt8.ofNat (q + 0xc0), UInt8.ofNat (r + 0x80)] := by
  have hn := toNat_charOfNat (n := q * 64 + r) (by omega)
  simp only [String.utf8EncodeChar, show ∀ c : Char, c.val.toNat = c.toNat from fun _ => rfl, hn]
  rw [if_neg (by omega), if_pos (by omega)]
  rw [show (q * 64 + r) / 64 % 32 = q by omega, show (q * 64 + r) % 64 = r by omega]

/-- A character of three bytes, by the bits in each. -/
theorem encodeChar_three {q r s : Nat} (hq : q < 16) (hr : r < 64) (hs : s < 64)
    (hshort : q = 0 → 32 ≤ r) (hsurrogate : q = 13 → r < 32) :
    String.utf8EncodeChar (Char.ofNat ((q * 64 + r) * 64 + s))
      = [UInt8.ofNat (q + 0xe0), UInt8.ofNat (r + 0x80), UInt8.ofNat (s + 0x80)] := by
  have hn := toNat_charOfNat (n := (q * 64 + r) * 64 + s) (by omega)
  simp only [String.utf8EncodeChar, show ∀ c : Char, c.val.toNat = c.toNat from fun _ => rfl, hn]
  rw [if_neg (by omega), if_neg (by omega), if_pos (by omega)]
  rw [show ((q * 64 + r) * 64 + s) / 4096 % 16 = q by omega,
    show ((q * 64 + r) * 64 + s) / 64 % 64 = r by omega,
    show ((q * 64 + r) * 64 + s) % 64 = s by omega]

/-- A character of four bytes, by the bits in each. -/
theorem encodeChar_four {q r s t : Nat} (hq : q < 5) (hr : r < 64) (hs : s < 64) (ht : t < 64)
    (hshort : q = 0 → 16 ≤ r) (hlast : q = 4 → r < 16) :
    String.utf8EncodeChar (Char.ofNat (((q * 64 + r) * 64 + s) * 64 + t))
      = [UInt8.ofNat (q + 0xf0), UInt8.ofNat (r + 0x80), UInt8.ofNat (s + 0x80),
          UInt8.ofNat (t + 0x80)] := by
  have hn := toNat_charOfNat (n := ((q * 64 + r) * 64 + s) * 64 + t) (by omega)
  simp only [String.utf8EncodeChar, show ∀ c : Char, c.val.toNat = c.toNat from fun _ => rfl, hn]
  rw [if_neg (by omega), if_neg (by omega), if_neg (by omega)]
  rw [show (((q * 64 + r) * 64 + s) * 64 + t) / 262144 % 8 = q by omega,
    show (((q * 64 + r) * 64 + s) * 64 + t) / 4096 % 64 = r by omega,
    show (((q * 64 + r) * 64 + s) * 64 + t) / 64 % 64 = s by omega,
    show (((q * 64 + r) * 64 + s) * 64 + t) % 64 = t by omega]

/-! ### Pending characters -/

namespace Pending

/-- A pending character has been read from some bytes: with any bytes that complete it, these are
the bytes of the character. -/
def Reads : Nat → Pending → List UInt8 → Prop
  | 0, p, seen => ∀ b : UInt8, p.low ≤ b → b ≤ p.high →
    String.utf8EncodeChar (Char.ofNat (p.push b)) = seen ++ [b]
  | more + 1, p, seen => ∀ b : UInt8, p.low ≤ b → b ≤ p.high →
    Reads more ⟨p.push b, p.taken + 1, more, 0x80, 0xbf⟩ (seen ++ [b])

end Pending

/-- A byte from the bits in it. -/
theorem eq_ofNat {b : UInt8} {q k : Nat} (h : b.toNat = q + k) : UInt8.ofNat (q + k) = b := by
  rw [← h, UInt8.ofNat_toNat]

/-- A byte within bounds, and the bits in it. -/
theorem exists_bits {low high c : UInt8} (hlow : low ≤ c) (hhigh : c ≤ high)
    (h : 0x80 ≤ low.toNat) :
    ∃ r, c.toNat = r + 0x80 ∧ low.toNat ≤ r + 0x80 ∧ r + 0x80 ≤ high.toNat := by
  have hc := UInt8.le_iff_toNat_le.mp hlow
  have hc' := UInt8.le_iff_toNat_le.mp hhigh
  exact ⟨c.toNat - 0x80, by omega, by omega, by omega⟩

/-- A byte behind the first two of a character, and the bits in it. -/
theorem exists_bits_more {c : UInt8} (hlow : (0x80 : UInt8) ≤ c) (hhigh : c ≤ (0xbf : UInt8)) :
    ∃ r, c.toNat = r + 0x80 ∧ r < 64 := by
  obtain ⟨r, hr, -, hle⟩ := exists_bits hlow hhigh (by decide)
  have hbf : (0xbf : UInt8).toNat = 0xbf := rfl
  exact ⟨r, hr, by omega⟩

section

variable {b low high : UInt8} {q : Nat}

theorem reads_two (hb : b.toNat = q + 0xc0) (hq : 2 ≤ q) (hq' : q < 32) :
    Pending.Reads 0 ⟨q, 1, 0, 0x80, 0xbf⟩ [b] := by
  intro c hlow hhigh
  obtain ⟨r, hc, hr⟩ := exists_bits_more hlow hhigh
  show String.utf8EncodeChar (Char.ofNat (q * 64 + (c.toNat - 0x80))) = [b, c]
  rw [hc, Nat.add_sub_cancel, encodeChar_two hq hq' hr, eq_ofNat hb, eq_ofNat hc]

theorem reads_three (hb : b.toNat = q + 0xe0) (hq : q < 16)
    (hbounds : 0x80 ≤ low.toNat ∧ high.toNat ≤ 0xbf) (hshort : q = 0 → 0xa0 ≤ low.toNat)
    (hsurrogate : q = 13 → high.toNat ≤ 0x9f) :
    Pending.Reads 1 ⟨q, 1, 1, low, high⟩ [b] := by
  intro c hlow hhigh d hlow' hhigh'
  obtain ⟨r, hc, hr, hr'⟩ := exists_bits hlow hhigh hbounds.1
  obtain ⟨s, hd, hs⟩ := exists_bits_more hlow' hhigh'
  simp only at hr hr'
  show String.utf8EncodeChar (Char.ofNat ((q * 64 + (c.toNat - 0x80)) * 64 + (d.toNat - 0x80)))
    = [b, c, d]
  rw [hc, hd, Nat.add_sub_cancel, Nat.add_sub_cancel,
    encodeChar_three hq (by omega) hs (by omega) (by omega), eq_ofNat hb, eq_ofNat hc, eq_ofNat hd]

theorem reads_four (hb : b.toNat = q + 0xf0) (hq : q < 5)
    (hbounds : 0x80 ≤ low.toNat ∧ high.toNat ≤ 0xbf) (hshort : q = 0 → 0x90 ≤ low.toNat)
    (hlast : q = 4 → high.toNat ≤ 0x8f) : Pending.Reads 2 ⟨q, 1, 2, low, high⟩ [b] := by
  intro c hlow hhigh d hlow' hhigh' e hlow'' hhigh''
  obtain ⟨r, hc, hr, hr'⟩ := exists_bits hlow hhigh hbounds.1
  obtain ⟨s, hd, hs⟩ := exists_bits_more hlow' hhigh'
  obtain ⟨t, he, ht⟩ := exists_bits_more hlow'' hhigh''
  simp only at hr hr'
  show String.utf8EncodeChar (Char.ofNat (((q * 64 + (c.toNat - 0x80)) * 64 + (d.toNat - 0x80)) * 64
    + (e.toNat - 0x80))) = [b, c, d, e]
  rw [hc, hd, he, Nat.add_sub_cancel, Nat.add_sub_cancel, Nat.add_sub_cancel,
    encodeChar_four hq (by omega) hs ht (by omega) (by omega), eq_ofNat hb, eq_ofNat hc,
    eq_ofNat hd, eq_ofNat he]

end

/-- The first byte of a longer character is all that has been read of it. -/
theorem reads_of_lead {b : UInt8} {p : Pending} (h : lead b = .opening p) :
    p.Reads p.more [b] := by
  unfold lead at h
  simp only at h
  split at h
  · cases h
  split at h
  · cases h
  -- the leads of longer characters, each with its own bounds on the next byte
  split at h
  · obtain rfl := Lead.opening.inj h
    exact reads_two (by omega) (by omega) (by omega)
  split at h
  · obtain rfl := Lead.opening.inj h
    exact reads_three (by omega) (by omega) (by decide) (fun _ => by decide) (by omega)
  split at h
  · obtain rfl := Lead.opening.inj h
    exact reads_three (by omega) (by omega) (by decide) (by omega) (fun _ => by decide)
  split at h
  · obtain rfl := Lead.opening.inj h
    exact reads_three (by omega) (by omega) (by decide) (by omega) (by omega)
  split at h
  · obtain rfl := Lead.opening.inj h
    exact reads_four (by omega) (by omega) (by decide) (fun _ => by decide) (by omega)
  split at h
  · obtain rfl := Lead.opening.inj h
    exact reads_four (by omega) (by omega) (by decide) (by omega) (by omega)
  split at h
  · obtain rfl := Lead.opening.inj h
    exact reads_four (by omega) (by omega) (by decide) (by omega) (fun _ => by decide)
  · cases h

/-- A byte that is a character is all of it. -/
theorem encodeChar_of_lead {b : UInt8} {c : Char} (h : lead b = .single c) :
    String.utf8EncodeChar c = [b] := by
  have hsmall : b.toNat < 0x80 ∧ c = Char.ofNat b.toNat := by
    unfold lead at h
    simp only at h
    split at h
    · next hb =>
      cases h
      exact ⟨hb, rfl⟩
    -- every other byte is the first of several, or stray
    iterate 8
      split at h
      · cases h
    cases h
  obtain ⟨hb, rfl⟩ := hsmall
  have hn : (Char.ofNat b.toNat).toNat = b.toNat := toNat_charOfNat (by omega)
  rw [encodeChar_ascii (by omega), hn, UInt8.ofNat_toNat]

/-! ### Characters before the first invalid piece -/

/-- The characters before the first invalid piece. -/
def leading : List Piece → List Char
  | .char c :: rest => c :: leading rest
  | _ => []

theorem length_encode (cs : List Char) : (encode cs).length = width cs := by
  induction cs with
  | nil => rfl
  | cons c cs ih => rw [encode_cons, List.length_append, ih, width, String.length_utf8EncodeChar]

theorem validPieces_eq (ps : List Piece) : validPieces ps = (encode (leading ps)).length := by
  induction ps with
  | nil => rfl
  | cons p ps ih =>
    cases p with
    | invalid => rfl
    | char c =>
      rw [leading, validPieces, ih, length_encode, length_encode, width]

/-- Bytes start with those of the characters before the first invalid piece, and there is nothing
else if there is no such piece. -/
structure Accounts (ps : List Piece) (bytes : List UInt8) : Prop where
  /-- The characters are encoded in front. -/
  leading : encode (leading ps) <+: bytes
  /-- They are all there is. -/
  all : ∀ cs, charsOf? ps = some cs → encode cs = bytes

theorem accounts_char {c : Char} {ps : List Piece} {front bytes : List UInt8}
    (hc : String.utf8EncodeChar c = front) (h : Accounts ps bytes) :
    Accounts (.char c :: ps) (front ++ bytes) := by
  subst hc
  constructor
  · rw [leading, encode_cons]
    exact List.prefix_append_right_inj _ |>.mpr h.leading
  · intro cs hcs
    obtain ⟨cs', hcs', rfl⟩ := Option.map_eq_some_iff.mp hcs
    rw [encode_cons, h.all cs' hcs']

theorem accounts_invalid (w : Nat) (ps : List Piece) (bytes : List UInt8) :
    Accounts (.invalid w :: ps) bytes :=
  ⟨List.nil_prefix, nofun⟩

/-- The pieces of bytes account for these, together with those that a pending character has been
read from. -/
theorem accounts_piecesFrom (bytes : List UInt8) :
    Accounts (piecesFrom none bytes) bytes ∧
      ∀ (p : Pending) (seen : List UInt8), p.Reads p.more seen →
        Accounts (piecesFrom (some p) bytes) (seen ++ bytes) := by
  induction bytes with
  | nil =>
    refine ⟨⟨List.nil_prefix, ?_⟩, fun p seen _ => accounts_invalid _ _ _⟩
    intro cs hcs
    cases hcs
    rfl
  | cons b rest ih =>
    obtain ⟨hnone, hsome⟩ := ih
    constructor
    · rw [piecesFrom]
      cases hb : lead b with
      | single c => exact accounts_char (encodeChar_of_lead hb) hnone
      | opening p => exact hsome p [b] (reads_of_lead hb)
      | stray => exact accounts_invalid 1 _ _
    · intro p seen hp
      rw [piecesFrom, List.append_cons]
      split
      · next hb =>
        cases hmore : p.more with
        | zero =>
          rw [hmore] at hp
          exact accounts_char (hp b hb.1 hb.2) hnone
        | succ more =>
          rw [hmore] at hp
          exact hsome _ _ (hp b hb.1 hb.2)
      · exact accounts_invalid _ _ _

/-- **What is decoded is encoded to the same bytes.** -/
theorem encode_of_decode? {bytes : List UInt8} {cs : List Char} (h : decode? bytes = some cs) :
    encode cs = bytes :=
  (accounts_piecesFrom bytes).1.all cs h

/-- The characters of bytes are those that they are the bytes of. -/
theorem decode?_eq_some_iff {bytes : List UInt8} {cs : List Char} :
    decode? bytes = some cs ↔ bytes = encode cs := by
  constructor
  · intro h
    rw [encode_of_decode? h]
  · rintro rfl
    exact decode?_encode cs

/-! ### The valid front -/

/-- The bytes before the first invalid piece are encoded text. -/
theorem exists_encode_eq_take (bytes : List UInt8) :
    ∃ cs, bytes.take (validLength bytes) = encode cs := by
  refine ⟨leading (pieces bytes), ?_⟩
  obtain ⟨rest, hrest⟩ := (accounts_piecesFrom bytes).1.leading
  rw [validLength, validPieces_eq, pieces]
  conv => lhs; arg 2; rw [← hrest]
  exact List.take_left

theorem pieces_encode_append (cs : List Char) (rest : List UInt8) :
    pieces (encode cs ++ rest) = cs.map .char ++ pieces rest := by
  induction cs with
  | nil => rfl
  | cons c cs ih =>
    rw [pieces, encode_cons, List.append_assoc, piecesFrom_encodeChar, ← pieces, ih,
      List.map_cons, List.cons_append]

/-- **The valid front is the longest one**: no encoded text in front of the bytes is longer. -/
theorem length_encode_le {cs : List Char} {bytes : List UInt8} (h : encode cs <+: bytes) :
    (encode cs).length ≤ validLength bytes := by
  obtain ⟨rest, rfl⟩ := h
  rw [validLength, pieces_encode_append]
  induction cs with
  | nil => exact Nat.zero_le _
  | cons c cs ih =>
    rw [length_encode] at ih ⊢
    rw [List.map_cons, List.cons_append, validPieces, width]
    omega

end Columnar.Utf8
