import Columnar.Proofs.Json.Spelling

/-!
# Finding tokens in bytes that arrive

A token that is found, or a fault, before the end of the bytes is known stays the same when more
bytes arrive, whether or not these are the last.  Places are counted from the first byte, so
blanks in front move them and nothing else.

## Main definitions

* `Scanned.IsSettled` — there is a token, or a fault.
* `Scanned.StartsAt` — something comes next behind so many blanks.
* `Scanned.shift` — the same behind some more blanks.

## Main results

* `scanToken_append` — **what is settled stays.**
* `scanToken_blanks` — blanks in front only move places.
* `exists_of_finished`, `exists_of_incomplete` — what is left where there is no token.
-/

namespace Columnar

namespace Scanned

/-- Whether more bytes cannot matter: there is a token, or a fault. -/
def IsSettled : Scanned → Prop
  | token _ _ _ => True
  | finished _ => False
  | incomplete _ => False
  | error _ _ _ _ => True

/-- There is a token or the start of one, or a fault, behind `n` blanks. -/
def StartsAt (n : Nat) : Scanned → Prop
  | token _ s _ => s = n
  | finished _ => False
  | incomplete s => s = n
  | error s _ _ _ => s = n

/-- The same behind `n` more blanks. -/
def shift (n : Nat) : Scanned → Scanned
  | token t s w => token t (s + n) w
  | finished s => finished (s + n)
  | incomplete s => incomplete (s + n)
  | error s cause place length => error (s + n) cause (place + n) length

end Scanned

/-! ### What is settled stays -/

theorem scanString_append {skipped : Nat} {rest : List UInt8}
    (h : (scanString false skipped rest).IsSettled) (atEof : Bool) (more : List UInt8) :
    scanString atEof skipped (rest ++ more) = scanString false skipped rest := by
  have hne : scanContentByByte rest ≠ .unclosed := by
    intro hc
    rw [scanString, scanContent_eq, hc] at h
    exact h
  rw [scanString, scanString, scanContent_eq, scanContent_eq, scanContentByByte_append hne]
  cases hc : scanContentByByte rest with
  | unclosed => exact absurd hc hne
  | closed | control => rfl

theorem scanNumber_append {skipped : Nat} {bytes : List UInt8}
    (h : (scanNumber false skipped bytes).IsSettled) (atEof : Bool) (more : List UInt8) :
    scanNumber atEof skipped (bytes ++ more) = scanNumber false skipped bytes := by
  have hne : (splitNumber bytes).rest ≠ [] := by
    intro hnil
    simp only [scanNumber, hnil] at h
    exact h
  -- more bytes change what is left over behind the parts, and nothing else
  have hsplit := splitNumber_append hne more
  have hrest : (splitNumber (bytes ++ more)).rest ≠ [] := by simp [hsplit, hne]
  have hflaw? : (splitNumber (bytes ++ more)).flaw? = (splitNumber bytes).flaw? := by
    rw [hsplit]
    rfl
  have hliteral : (splitNumber (bytes ++ more)).literal = (splitNumber bytes).literal := by
    rw [hsplit]
    rfl
  have hshape : (splitNumber (bytes ++ more)).shape = (splitNumber bytes).shape := by
    rw [hsplit]
    rfl
  simp only [scanNumber, hrest, hflaw?, hliteral, hshape, hne, false_and, if_false]
  cases hflaw : (splitNumber bytes).flaw? with
  | none => rfl
  | some place =>
    -- the flaw is no further than the byte behind the literal
    have hlt : place < bytes.length := by
      have hle := NumberParts.flaw?_le hflaw
      have hlen := congrArg List.length (literal_append_rest bytes)
      have hpos := List.length_pos_iff.mpr hne
      rw [List.length_append] at hlen
      omega
    simp only [List.getElem?_append_left hlt]

theorem scanWord_append {t : Token} {skipped total seen : Nat} {ws bytes : List UInt8}
    (h : (scanWord false t skipped total seen ws bytes).IsSettled) (atEof : Bool)
    (more : List UInt8) : scanWord atEof t skipped total seen ws (bytes ++ more)
      = scanWord false t skipped total seen ws bytes := by
  induction ws generalizing seen bytes with
  | nil => rfl
  | cons w ws ih =>
    cases bytes with
    | nil => exact h.elim
    | cons b bytes =>
      rw [scanWord] at h
      rw [List.cons_append, scanWord, scanWord]
      split at h
      · next hb =>
        rw [if_pos hb, if_pos hb]
        exact ih h
      · next hb => rw [if_neg hb, if_neg hb]

theorem scanBody_append {skipped : Nat} {bytes : List UInt8}
    (h : (scanBody false skipped bytes).IsSettled) (atEof : Bool) (more : List UInt8) :
    scanBody atEof skipped (bytes ++ more) = scanBody false skipped bytes := by
  cases bytes with
  | nil => exact h.elim
  | cons b rest =>
    rw [List.cons_append]
    cases tokenStart b with
    | mark hm => rw [scanBody_mark hm, scanBody_mark hm]
    | quote hq =>
      subst hq
      exact scanString_append h atEof more
    | number hn =>
      rw [scanBody_number hn] at h ⊢
      rw [scanBody_number hn]
      exact scanNumber_append h atEof more
    | word hw =>
      rw [scanBody_word hw] at h ⊢
      rw [scanBody_word hw]
      exact scanWord_append h atEof more
    | none hnone => rw [hnone, hnone]

theorem dropWhile_blank_ne_nil {bytes : List UInt8} (h : (scanToken false bytes).IsSettled) :
    bytes.dropWhile isBlankByte ≠ [] := by
  intro hnil
  rw [scanToken, hnil] at h
  exact h

/-- **What is settled stays** when more bytes arrive, whether or not these are the last. -/
theorem scanToken_append {bytes : List UInt8} (h : (scanToken false bytes).IsSettled)
    (atEof : Bool) (more : List UInt8) :
    scanToken atEof (bytes ++ more) = scanToken false bytes := by
  have hne := dropWhile_blank_ne_nil h
  rw [scanToken, takeWhile_append_of_dropWhile_ne_nil hne,
    dropWhile_append_of_dropWhile_ne_nil hne]
  exact scanBody_append h atEof more

/-! ### Blanks in front -/

theorem touchingEnd_shift (atEof : Bool) (context : ScanContext) (skipped left n : Nat) :
    touchingEnd atEof context (skipped + n) left
      = (touchingEnd atEof context skipped left).shift n := by
  cases atEof <;> rfl

theorem scanString_shift (atEof : Bool) (skipped n : Nat) (rest : List UInt8) :
    scanString atEof (skipped + n) rest = (scanString atEof skipped rest).shift n := by
  unfold scanString
  cases scanContent rest with
  | closed => rfl
  | unclosed => exact touchingEnd_shift _ _ _ _ _
  | control b place =>
    show Scanned.error _ _ (skipped + n + 1 + place) 1 = .error _ _ (skipped + 1 + place + n) 1
    congr 1
    omega

theorem scanNumber_shift (atEof : Bool) (skipped n : Nat) (bytes : List UInt8) :
    scanNumber atEof (skipped + n) bytes = (scanNumber atEof skipped bytes).shift n := by
  unfold scanNumber
  simp only
  split
  · rfl
  · split
    · rfl
    · next place _ =>
      have hplace : skipped + n + place = skipped + place + n := Nat.add_right_comm _ _ _
      split <;> rw [hplace, Scanned.shift]

theorem scanWord_shift (atEof : Bool) (t : Token) (skipped n total seen : Nat)
    (ws bytes : List UInt8) : scanWord atEof t (skipped + n) total seen ws bytes
      = (scanWord atEof t skipped total seen ws bytes).shift n := by
  induction ws generalizing seen bytes with
  | nil => rfl
  | cons w ws ih =>
    cases bytes with
    | nil => exact touchingEnd_shift _ _ _ _ _
    | cons b bytes =>
      rw [scanWord, scanWord]
      split
      · exact ih (seen + 1) bytes
      · rw [Scanned.shift, Nat.add_right_comm]

theorem scanBody_shift (atEof : Bool) (skipped n : Nat) (bytes : List UInt8) :
    scanBody atEof (skipped + n) bytes = (scanBody atEof skipped bytes).shift n := by
  cases bytes with
  | nil => rfl
  | cons b rest =>
    cases tokenStart b with
    | mark hm =>
      rw [scanBody_mark hm, scanBody_mark hm]
      rfl
    | quote hq =>
      subst hq
      exact scanString_shift atEof skipped n rest
    | number hn =>
      rw [scanBody_number hn, scanBody_number hn]
      exact scanNumber_shift atEof skipped n (b :: rest)
    | word hw =>
      rw [scanBody_word hw, scanBody_word hw]
      exact scanWord_shift atEof _ skipped n _ _ _ rest
    | none hnone =>
      rw [hnone, hnone]
      rfl

/-- Blanks in front only move places. -/
theorem scanToken_blanks {blanks : List UInt8} (h : ∀ b ∈ blanks, isBlankByte b = true)
    (atEof : Bool) (bytes : List UInt8) :
    scanToken atEof (blanks ++ bytes) = (scanToken atEof bytes).shift blanks.length := by
  rw [scanToken, List.takeWhile_append_of_pos h, List.dropWhile_append_of_pos h,
    List.length_append, Nat.add_comm, scanBody_shift]
  rfl

/-! ### What is left -/

theorem startsAt_touchingEnd (atEof : Bool) (context : ScanContext) (skipped left : Nat) :
    (touchingEnd atEof context skipped left).StartsAt skipped := by
  cases atEof <;> rfl

theorem startsAt_scanString (atEof : Bool) (skipped : Nat) (rest : List UInt8) :
    (scanString atEof skipped rest).StartsAt skipped := by
  unfold scanString
  cases scanContent rest with
  | closed | control => rfl
  | unclosed => exact startsAt_touchingEnd _ _ _ _

theorem startsAt_scanNumber (atEof : Bool) (skipped : Nat) (bytes : List UInt8) :
    (scanNumber atEof skipped bytes).StartsAt skipped := by
  unfold scanNumber
  simp only
  split
  · rfl
  · split
    · rfl
    · split <;> rfl

theorem startsAt_scanWord (atEof : Bool) (t : Token) (skipped total seen : Nat)
    (ws bytes : List UInt8) :
    (scanWord atEof t skipped total seen ws bytes).StartsAt skipped := by
  induction ws generalizing seen bytes with
  | nil => rfl
  | cons w ws ih =>
    cases bytes with
    | nil => exact startsAt_touchingEnd _ _ _ _
    | cons b bytes =>
      rw [scanWord]
      split
      · exact ih (seen + 1) bytes
      · rfl

/-- Where bytes are left, something comes next. -/
theorem startsAt_scanBody (atEof : Bool) (skipped : Nat) {bytes : List UInt8} (h : bytes ≠ []) :
    (scanBody atEof skipped bytes).StartsAt skipped := by
  obtain ⟨b, rest, rfl⟩ := List.exists_cons_of_ne_nil h
  cases tokenStart b with
  | mark hm =>
    rw [scanBody_mark hm]
    rfl
  | quote hq =>
    subst hq
    exact startsAt_scanString atEof skipped rest
  | number hn =>
    rw [scanBody_number hn]
    exact startsAt_scanNumber atEof skipped (b :: rest)
  | word hw =>
    rw [scanBody_word hw]
    exact startsAt_scanWord atEof _ skipped _ _ _ rest
  | none hnone =>
    rw [hnone]
    rfl

/-- The blanks in front and what follows them. -/
theorem exists_blanks (bytes : List UInt8) : ∃ blanks rest, bytes = blanks ++ rest ∧
    (∀ b ∈ blanks, isBlankByte b = true) ∧
    ∀ atEof, scanToken atEof bytes = scanBody atEof blanks.length rest :=
  ⟨bytes.takeWhile isBlankByte, bytes.dropWhile isBlankByte,
    List.takeWhile_append_dropWhile.symm,
    fun b hb => List.all_eq_true.mp List.all_takeWhile b hb, fun _ => rfl⟩

/-- Nothing comes next only behind blanks. -/
theorem exists_of_finished {atEof : Bool} {bytes : List UInt8} {s : Nat}
    (h : scanToken atEof bytes = .finished s) :
    (∀ b ∈ bytes, isBlankByte b = true) ∧ s = bytes.length := by
  obtain ⟨blanks, rest, rfl, hblanks, hscan⟩ := exists_blanks bytes
  rw [hscan] at h
  by_cases hrest : rest = []
  · subst hrest
    cases h
    rw [List.append_nil]
    exact ⟨hblanks, rfl⟩
  · have hstarts := startsAt_scanBody atEof blanks.length hrest
    rw [h] at hstarts
    exact hstarts.elim

/-- Of an incomplete token there is at least a byte, and only blanks come before it. -/
theorem exists_of_incomplete {atEof : Bool} {bytes : List UInt8} {s : Nat}
    (h : scanToken atEof bytes = .incomplete s) :
    ∃ blanks rest, bytes = blanks ++ rest ∧ (∀ b ∈ blanks, isBlankByte b = true) ∧
      blanks.length = s ∧ rest ≠ [] := by
  obtain ⟨blanks, rest, rfl, hblanks, hscan⟩ := exists_blanks bytes
  rw [hscan] at h
  have hrest : rest ≠ [] := by
    rintro rfl
    cases h
  have hstarts := startsAt_scanBody atEof blanks.length hrest
  rw [h] at hstarts
  exact ⟨blanks, rest, rfl, hblanks, hstarts.symm, hrest⟩

end Columnar
