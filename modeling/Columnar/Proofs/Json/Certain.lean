import Columnar.Json.Feed
import Columnar.Proofs.Json.Lex

/-!
# Tokens that are certain

Of bytes that others may follow, some tokens are there whatever follows.  They are the tokens that
are found while more bytes may come.  What is left then is no token of every continuation: a
string or a word that is cut off is none if nothing follows, and a number that touches the end is
longer, or no number, if a digit follows.

## Main definitions

* `IsCertain` — the tokens that every continuation of some bytes starts with.

## Main results

* `place_of_stop_lex` — the bytes are passed over to their end.
* `stop_lt_of_isNumber` — a number that touches the end is not found.
* `isCertain_lex` — **the tokens that are found while more bytes may come are the certain ones.**
-/

namespace Columnar

/-- The tokens that every continuation of some bytes starts with, and no fewer of them. -/
structure IsCertain (bytes : List UInt8) (ts : List Located) : Prop where
  /-- Every continuation starts with them. -/
  common : ∀ more, ts <+: (tokensOf (bytes ++ more)).tokens
  /-- Every continuation starts with no others. -/
  greatest : ∀ us, (∀ more, us <+: (tokensOf (bytes ++ more)).tokens) → us <+: ts

/-! ### What is left -/

/-- What is left of bytes starts with the token that is incomplete. -/
theorem scanToken_of_stop_lex {atEof : Bool} {offset offset' : Nat} {bytes rest : List UInt8}
    (h : (lex atEof offset bytes).stop = .incomplete offset' rest) :
    scanToken atEof rest = .incomplete 0 := by
  fun_induction lex atEof offset bytes with
  | case1 offset bytes t s w hscan more ih => exact ih h
  | case2 | case4 => cases h
  | case3 offset bytes s hscan =>
    obtain ⟨blanks, rest, rfl, hblanks, rfl, -⟩ := exists_of_incomplete hscan
    cases h
    rw [List.drop_left]
    rw [scanToken_blanks hblanks] at hscan
    cases hrest : scanToken atEof rest with
    | incomplete s =>
      rw [hrest, Scanned.shift, Scanned.incomplete.injEq] at hscan
      rw [show s = 0 by omega]
    | token | finished | error =>
      rw [hrest] at hscan
      cases hscan

/-- An incomplete token that no blanks come before goes on with the bytes that follow. -/
theorem scanToken_of_incomplete {atEof : Bool} {rest : List UInt8}
    (h : scanToken atEof rest = .incomplete 0) (atEof' : Bool) (more : List UInt8) :
    scanToken atEof' (rest ++ more) = scanBody atEof' 0 (rest ++ more) := by
  have hne : rest.dropWhile isBlankByte ≠ [] := by
    intro hnil
    rw [scanToken, hnil] at h
    cases h
  have hstarts := startsAt_scanBody atEof (rest.takeWhile isBlankByte).length hne
  rw [show scanBody atEof _ _ = .incomplete 0 from h] at hstarts
  have hnil : rest.takeWhile isBlankByte = [] := List.eq_nil_of_length_eq_zero hstarts.symm
  have hdrop := List.takeWhile_append_dropWhile (p := isBlankByte) (l := rest)
  rw [hnil, List.nil_append] at hdrop
  rw [scanToken, takeWhile_append_of_dropWhile_ne_nil hne,
    dropWhile_append_of_dropWhile_ne_nil hne, hnil, hdrop]
  rfl

/-- What is left of bytes is left of what is left. -/
theorem lex_of_stop_lex {offset offset' : Nat} {bytes rest : List UInt8}
    (h : (lex false offset bytes).stop = .incomplete offset' rest) :
    lex false offset' rest = ⟨[], .incomplete offset' rest⟩ :=
  lex_of_incomplete (scanToken_of_stop_lex h)

/-- A token and what comes before and behind it are all there is. -/
theorem add_length_drop_of_scanToken {atEof : Bool} {s w : Nat} {bytes : List UInt8} {t : Token}
    (h : scanToken atEof bytes = .token t s w) :
    s + w + (bytes.drop (s + w)).length = bytes.length := by
  obtain ⟨blanks, text, rest, rfl, -, -, rfl, rfl⟩ := exists_of_scanToken h
  simp only [List.length_drop, List.length_append]
  omega

/-- The bytes are passed over to their end, unless there is a fault. -/
theorem place_of_stop_lex (atEof : Bool) (offset : Nat) (bytes : List UInt8) :
    match (lex atEof offset bytes).stop with
    | .finished offset' => offset' = offset + bytes.length
    | .incomplete offset' rest => offset' + rest.length = offset + bytes.length
    | .error _ _ => True := by
  fun_induction lex atEof offset bytes with
  | case1 offset bytes t s w hscan more ih =>
    have hplace : offset + s + w + (bytes.drop (s + w)).length = offset + bytes.length := by
      have := add_length_drop_of_scanToken hscan
      omega
    rwa [hplace] at ih
  | case2 offset bytes s hscan => rw [(exists_of_finished hscan).2]
  | case3 offset bytes s hscan =>
    obtain ⟨blanks, rest, rfl, -, rfl, -⟩ := exists_of_incomplete hscan
    simp only [List.drop_left, List.length_append]
    omega
  | case4 => trivial

/-! ### Numbers at the end -/

section

variable {skipped s w : Nat} {bytes : List UInt8} {t : Token}

/-- A number that is found has bytes behind it, if more may come. -/
theorem lt_length_of_scanNumber (h : scanNumber false skipped bytes = .token t s w) :
    s = skipped ∧ w < bytes.length := by
  obtain ⟨hs, hw, -, -⟩ := exists_of_scanNumber h
  have hrest : (splitNumber bytes).rest ≠ [] := by
    intro hnil
    simp [scanNumber, hnil] at h
  have hpos := List.length_pos_iff.mpr hrest
  have hlen := congrArg List.length (literal_append_rest bytes)
  rw [List.length_append] at hlen
  exact ⟨hs, by omega⟩

theorem lt_length_of_scanBody (h : scanBody false skipped bytes = .token t s w)
    (ht : t.isNumber = true) : s = skipped ∧ w < bytes.length := by
  cases bytes with
  | nil => cases h
  | cons b rest =>
    cases tokenStart b with
    | mark hm =>
      rw [scanBody_mark hm] at h
      cases h
      have hmarks : ∀ m ∈ markBytes, m.1.isNumber = false := by decide
      rw [hmarks _ (mem_markBytes hm)] at ht
      cases ht
    | quote hq =>
      subst hq
      obtain ⟨-, content, hasEscapes, more, -, -, rfl, -⟩ := exists_of_scanString h
      cases ht
    | number hn =>
      rw [scanBody_number hn] at h
      exact lt_length_of_scanNumber h
    | word hw =>
      rw [scanBody_word hw] at h
      obtain ⟨rfl, -⟩ := exists_of_scanWord h
      rcases wordBytes_cases hw with ⟨rfl, -⟩ | ⟨rfl, -⟩ | ⟨rfl, -⟩ <;> cases ht
    | none hnone =>
      rw [hnone] at h
      cases h

theorem lt_length_of_scanToken (h : scanToken false bytes = .token t s w)
    (ht : t.isNumber = true) : s + w < bytes.length := by
  obtain ⟨blanks, rest, rfl, -, hscan⟩ := exists_blanks bytes
  rw [hscan] at h
  obtain ⟨rfl, hlt⟩ := lt_length_of_scanBody h ht
  rw [List.length_append]
  omega

end

/-- **A number that touches the end is not found**, if more bytes may come. -/
theorem stop_lt_of_isNumber (offset : Nat) (bytes : List UInt8) :
    ∀ t ∈ (lex false offset bytes).tokens, t.token.isNumber = true →
      t.span.offset + t.span.length < offset + bytes.length := by
  generalize hatEof : false = atEof
  fun_induction lex atEof offset bytes with
  | case1 offset bytes t s w hscan more ih =>
    subst hatEof
    refine List.forall_mem_cons.mpr ⟨fun ht => ?_, fun u hu hnumber => ?_⟩
    · have := lt_length_of_scanToken hscan ht
      simp only
      omega
    · have hu := ih u hu hnumber
      have hlen := add_length_drop_of_scanToken hscan
      omega
  | case2 | case3 | case4 => exact fun _ ht => absurd ht List.not_mem_nil

section

variable {s w s' w' : Nat} {rest : List UInt8} {t t' : Token} {d : UInt8}

theorem lt_width_of_scanNumber (hd : isDigitByte d = true)
    (h : scanNumber false 0 rest = .incomplete 0) (hend : scanNumber true 0 rest = .token t s w)
    (hmore : scanNumber true 0 (rest ++ [d]) = .token t' s' w') : w < w' := by
  have hrest : (splitNumber rest).rest = [] := by
    by_contra hne
    simp only [scanNumber, hne, false_and, if_false] at h
    split at h
    · cases h
    · split at h <;> cases h
  have hliteral := literal_append_rest rest
  rw [hrest, List.append_nil] at hliteral
  obtain ⟨-, hw, hgrammatical, -⟩ := exists_of_scanNumber hend
  obtain ⟨-, hw', -, -⟩ := exists_of_scanNumber hmore
  -- the digit is split off with the number
  have hle := hgrammatical.length_rest_le [d]
  have hdigits : splitDigitBytes [d] = ([d], []) := by
    simp [splitDigitBytes, hd]
  rw [hliteral, hdigits] at hle
  have hlen := congrArg List.length (literal_append_rest (rest ++ [d]))
  simp only [List.length_append, List.length_singleton] at hlen
  rw [hliteral] at hw
  simp only [List.length_nil] at hle
  omega

/-- A token that touches the end of the bytes is found as another one, or not at all, if a digit
follows. -/
theorem lt_width_of_digit (hd : isDigitByte d = true) (h : scanToken false rest = .incomplete 0)
    (hend : scanToken true rest = .token t s w)
    (hmore : scanToken true (rest ++ [d]) = .token t' s' w') : w < w' := by
  have hbody : ∀ atEof more, scanToken atEof (rest ++ more) = scanBody atEof 0 (rest ++ more) :=
    scanToken_of_incomplete h
  have hnil : ∀ atEof, scanToken atEof rest = scanBody atEof 0 rest := fun atEof => by
    simpa using hbody atEof []
  rw [hnil] at h hend
  rw [hbody] at hmore
  cases rest with
  | nil => cases h
  | cons b rest =>
    -- a mark, a string or a word that is found at the end is found before it
    cases tokenStart b with
    | mark hm =>
      rw [scanBody_mark hm] at h
      cases h
    | quote hq =>
      subst hq
      obtain ⟨-, content, hasEscapes, more, hstring, rfl, -, -⟩ := exists_of_scanString hend
      rw [scanBody_quote, hstring.scanString] at h
      cases h
    | number hn =>
      rw [List.cons_append, scanBody_number hn] at hmore
      rw [scanBody_number hn] at h hend
      exact lt_width_of_scanNumber hd h hend hmore
    | word hw =>
      rw [scanBody_word hw] at h hend
      obtain ⟨-, -, -, more, rfl⟩ := exists_of_scanWord hend
      rw [scanWord_spelled] at h
      cases h
    | none hnone =>
      rw [hnone] at h
      cases h

end

/-! ### Certain tokens -/

/-- The tokens of every continuation start with those that are found while more bytes may come. -/
theorem prefix_tokensOf_append (bytes more : List UInt8) :
    (lex false 0 bytes).tokens <+: (tokensOf (bytes ++ more)).tokens := by
  change _ <+: (lex true 0 (bytes ++ more)).tokens
  rw [lex_append, Lexed.resume]
  split
  · exact List.prefix_append _ _
  · exact List.prefix_append _ _
  · exact List.prefix_refl _

/-- A front of two lists that differ behind a common front is part of that. -/
theorem prefix_of_head?_ne {ts us vs vs' : List Located} (h : us <+: ts ++ vs)
    (h' : us <+: ts ++ vs') (hne : ∀ v, vs.head? = some v → vs'.head? ≠ some v) : us <+: ts := by
  induction ts generalizing us with
  | nil =>
    cases us with
    | nil => exact List.nil_prefix
    | cons u us =>
      obtain ⟨more, rfl⟩ := h
      obtain ⟨more', rfl⟩ := h'
      exact absurd rfl (hne u rfl)
  | cons t ts ih =>
    cases us with
    | nil => exact List.nil_prefix
    | cons u us =>
      obtain ⟨rfl, hback⟩ := List.cons_prefix_cons.mp h
      exact List.cons_prefix_cons.mpr ⟨rfl, ih hback (List.cons_prefix_cons.mp h').2⟩

/-- The first token of bytes is the one that is found there. -/
theorem scanToken_of_head?_lex {atEof : Bool} {offset : Nat} {bytes : List UInt8} {t : Located}
    (h : (lex atEof offset bytes).tokens.head? = some t) :
    ∃ s, scanToken atEof bytes = .token t.token s t.span.length := by
  cases hscan : scanToken atEof bytes with
  | token u s w =>
    rw [lex_of_token hscan] at h
    cases h
    exact ⟨s, rfl⟩
  | finished s =>
    rw [lex_of_finished hscan] at h
    cases h
  | incomplete s =>
    rw [lex_of_incomplete hscan] at h
    cases h
  | error s cause place length =>
    rw [lex_of_error hscan] at h
    cases h

/-- **The tokens that are found while more bytes may come are the certain ones.** -/
theorem isCertain_lex (bytes : List UInt8) : IsCertain bytes (lex false 0 bytes).tokens := by
  refine ⟨prefix_tokensOf_append bytes, fun us hus => ?_⟩
  have hmore : ∀ more, us <+: ((lex false 0 bytes).resume fun offset rest =>
      lex true offset (rest ++ more)).tokens := by
    intro more
    rw [← lex_append]
    exact hus more
  simp only [Lexed.resume] at hmore
  cases hstop : (lex false 0 bytes).stop with
  | error offset e => simpa [hstop] using hmore []
  | finished offset =>
    -- nothing follows
    have hnil := hmore []
    have hlex : lex true offset [] = ⟨[], .finished offset⟩ := lex_of_finished (s := 0) rfl
    simpa [hstop, hlex] using hnil
  | incomplete offset rest =>
    -- nothing follows, or a digit
    have hnil := hmore []
    have hdigit := hmore [0x30]
    simp only [hstop, List.append_nil] at hnil hdigit
    refine prefix_of_head?_ne hnil hdigit fun t ht ht' => ?_
    obtain ⟨s, hend⟩ := scanToken_of_head?_lex ht
    obtain ⟨s', hlonger⟩ := scanToken_of_head?_lex ht'
    exact Nat.lt_irrefl _ (lt_width_of_digit rfl (scanToken_of_stop_lex hstop) hend hlonger)

end Columnar
