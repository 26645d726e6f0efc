import Columnar.Proofs.Json.Certain
import Columnar.Proofs.Json.Places
import Columnar.Proofs.Json.Texts

/-!
# Texts behind one another

The tokens of a text followed by another one are the tokens of both, unless a number touches the
place where they meet and goes on there.  The other way round, a text can be cut behind any of its
tokens: what comes before the cut has the tokens up to there, and what comes behind it the others.

A number is the only token that depends on what follows it, and it is split off greedily; so if
its bytes are followed by others in some text, it is found just so when some of these are left out
at the end.

## Main results

* `splitNumber_of_append` — a number that something follows does not depend on what comes later.
* `scanToken_append_of`, `scanToken_of_append` — a token before more bytes, and before fewer.
* `lex_append_of` — **texts are joined.**
* `exists_of_lex_append` — **texts are cut.**
-/

namespace Columnar

/-! ### Numbers before fewer bytes -/

section

variable {bytes : List UInt8}

theorem length_splitDigitBytes_append_le (h : (splitDigitBytes bytes).2 = [])
    (more : List UInt8) : (splitDigitBytes (bytes ++ more)).2.length ≤ more.length := by
  have hdigits : ∀ b ∈ bytes, isDigitByte b = true := by
    have hall := splitDigitBytes_append_rest bytes
    rw [h, List.append_nil] at hall
    rw [← hall]
    exact fun b hb => isDigitByte_of_mem_splitDigitBytes hb
  rw [splitDigitBytes_digits hdigits]
  exact length_splitDigitBytes_le more

theorem length_splitFraction_append_le (h : (splitFraction bytes).2 = [])
    (more : List UInt8) : (splitFraction (bytes ++ more)).2.length ≤ more.length := by
  by_cases hpoint : bytes.head? = some 0x2e
  · obtain ⟨digits, rfl⟩ := List.head?_eq_some_iff.mp hpoint
    rw [splitFraction_point] at h
    rw [List.cons_append, splitFraction_point]
    exact length_splitDigitBytes_append_le h more
  · rw [splitFraction_of_head? hpoint] at h
    subst h
    exact length_splitFraction_le more

/-- Behind a mark no more is left than follows it. -/
theorem length_splitExponent_mark_le {mark : List UInt8} (h : mark ∈ exponentMarks)
    (more : List UInt8) : (splitExponent (mark ++ more)).2.length ≤ more.length := by
  by_cases hsign : mark.length = 1 → ∀ b ∈ more.head?, b ≠ 0x2b ∧ b ≠ 0x2d
  · rw [splitExponent_mark h hsign]
    exact length_splitDigitBytes_le more
  · -- a sign that follows belongs to the mark
    obtain ⟨hlen, b, hb, hb'⟩ : mark.length = 1 ∧ ∃ b ∈ more.head?, b = 0x2b ∨ b = 0x2d := by
      simp only [Classical.not_imp, not_forall, not_and_or, ne_eq, not_not] at hsign
      obtain ⟨hlen, b, hb, hor⟩ := hsign
      exact ⟨hlen, b, hb, hor⟩
    obtain ⟨more, rfl⟩ := List.head?_eq_some_iff.mp hb
    have hmark : mark ++ [b] ∈ exponentMarks := by
      have hmarks : ∀ m ∈ exponentMarks, m.length = 1 →
          m ++ [0x2b] ∈ exponentMarks ∧ m ++ [0x2d] ∈ exponentMarks := by decide
      rcases hb' with rfl | rfl
      · exact (hmarks mark h hlen).1
      · exact (hmarks mark h hlen).2
    rw [List.append_cons, splitExponent_mark hmark (fun hone => by simp [hlen] at hone)]
    exact Nat.le_succ_of_le (length_splitDigitBytes_le more)

theorem length_splitExponent_append_le (h : (splitExponent bytes).2 = [])
    (more : List UInt8) : (splitExponent (bytes ++ more)).2.length ≤ more.length := by
  by_cases hmark : ∀ b ∈ bytes.head?, isExponentByte b = false
  · rw [splitExponent_of_head? hmark] at h
    subst h
    exact length_splitExponent_le more
  · obtain ⟨mark, hmem, digits, rfl, hsign⟩ := exists_exponentMark hmark
    rw [splitExponent_mark hmem hsign] at h
    rw [List.append_assoc]
    cases digits with
    | nil => exact length_splitExponent_mark_le hmem more
    | cons d digits =>
      have hnext : mark.length = 1 → ∀ c ∈ (d :: digits ++ more).head?, c ≠ 0x2b ∧ c ≠ 0x2d :=
        hsign
      rw [splitExponent_mark hmem hnext]
      exact length_splitDigitBytes_append_le h more

/-- The parts behind a sign. -/
theorem length_rest_splitUnsigned_append_le {negative : Bool}
    (h : (splitUnsigned negative bytes).rest = []) (more : List UInt8) :
    (splitUnsigned negative (bytes ++ more)).rest.length ≤ more.length := by
  -- the part in which the bytes come to their end takes what it can of the others
  by_cases hwhole : (splitDigitBytes bytes).2 = []
  · have hle := length_splitDigitBytes_append_le hwhole more
    exact Nat.le_trans (length_splitExponent_le _) (Nat.le_trans (length_splitFraction_le _) hle)
  · by_cases hfraction : (splitFraction (splitDigitBytes bytes).2).2 = []
    · have hle := length_splitFraction_append_le hfraction more
      rw [splitUnsigned, splitDigitBytes_append hwhole]
      exact Nat.le_trans (length_splitExponent_le _) hle
    · rw [splitUnsigned, splitDigitBytes_append hwhole, splitFraction_append hfraction]
      exact length_splitExponent_append_le h more

/-- What is split off greedily reaches as far before more bytes. -/
theorem length_rest_append_le (h : (splitNumber bytes).rest = []) (more : List UInt8) :
    (splitNumber (bytes ++ more)).rest.length ≤ more.length := by
  obtain ⟨negative, unsigned, heq, rfl, hsign⟩ := exists_splitNumber bytes
  rw [heq] at h
  have hle := length_rest_splitUnsigned_append_le h more
  cases negative with
  | true => exact hle
  | false =>
    cases unsigned with
    | nil =>
      have hlen := congrArg List.length (literal_append_rest more)
      rw [List.length_append] at hlen
      show (splitNumber more).rest.length ≤ _
      omega
    | cons b unsigned =>
      have hhead : (b :: (unsigned ++ more)).head? ≠ some 0x2d := hsign rfl
      show (splitNumber (b :: (unsigned ++ more))).rest.length ≤ _
      rw [splitNumber_of_head? hhead]
      exact hle

/-- A number that something follows does not depend on what comes later. -/
theorem splitNumber_of_append {rest more : List UInt8} (hne : rest ≠ [])
    (h : (splitNumber (bytes ++ more)).rest = rest ++ more) :
    splitNumber bytes = { splitNumber (bytes ++ more) with rest } := by
  by_cases hrest : (splitNumber bytes).rest = []
  · have hle := length_rest_append_le hrest more
    have hpos := List.length_pos_iff.mpr hne
    rw [h, List.length_append] at hle
    omega
  · have hmore := splitNumber_append hrest more
    rw [hmore] at h ⊢
    rw [← List.append_cancel_right h]

end

/-! ### Tokens -/

section

variable {blanks text tail : List UInt8} {s w : Nat} {t : Token}

/-- A token behind blanks is found, unless it is a number and goes on. -/
theorem Spells.scanToken (ht : Spells t text) (hb : ∀ b ∈ blanks, isBlankByte b = true)
    (htail : t.isNumber = true → ∀ b ∈ tail.head?, continuesNumber b = false) :
    Columnar.scanToken true (blanks ++ (text ++ tail)) = .token t blanks.length text.length := by
  rw [Columnar.scanToken, (blanks_append hb ht).1, (blanks_append hb ht).2, ht.scanBody htail]

/-- The bytes of a number, and what follows it. -/
theorem Spells.splitNumber (ht : Spells t text) (hb : ∀ b ∈ blanks, isBlankByte b = true)
    (hn : t.isNumber = true)
    (h : Columnar.scanToken true (blanks ++ (text ++ tail)) = .token t s w) :
    scanNumber true blanks.length (text ++ tail) = .token t s w ∧
      (Columnar.splitNumber (text ++ tail)).literal = text ∧
      (Columnar.splitNumber (text ++ tail)).rest = tail := by
  rw [Columnar.scanToken, (blanks_append hb ht).1, (blanks_append hb ht).2] at h
  cases ht with
  | mark hm =>
    have hmarks : ∀ m ∈ markBytes, m.1.isNumber = false := by decide
    rw [hmarks _ (mem_markBytes hm)] at hn
    cases hn
  | word hw => rcases wordBytes_cases hw with ⟨rfl, -⟩ | ⟨rfl, -⟩ | ⟨rfl, -⟩ <;> cases hn
  | string => cases hn
  | @number p hp =>
    obtain ⟨b, more, heq, hstart⟩ := hp.isNumberStart tail
    rw [heq, scanBody_number hstart, ← heq] at h
    obtain ⟨-, -, -, htoken⟩ := exists_of_scanNumber h
    injection htoken with hliteral _
    refine ⟨h, hliteral.symm, ?_⟩
    have hall := literal_append_rest (p.literal ++ tail)
    rw [← hliteral] at hall
    exact List.append_cancel_left hall

/-- A token that something follows is found before anything else that leaves the parts of a number
as they are. -/
theorem Spells.scanToken_congr {tail' : List UInt8} (ht : Spells t text)
    (hb : ∀ b ∈ blanks, isBlankByte b = true)
    (h : Columnar.scanToken true (blanks ++ (text ++ tail)) = .token t s w)
    (hparts : t.isNumber = true → Columnar.splitNumber (text ++ tail')
      = { Columnar.splitNumber (text ++ tail) with rest := tail' }) :
    Columnar.scanToken true (blanks ++ (text ++ tail')) = .token t s w := by
  by_cases hn : t.isNumber = true
  · obtain ⟨hscan, hliteral, -⟩ := ht.splitNumber hb hn h
    obtain ⟨rfl, rfl, hgrammatical, htoken⟩ := exists_of_scanNumber hscan
    have hbody : Columnar.scanBody true blanks.length (text ++ tail')
        = scanNumber true blanks.length (text ++ tail') := by
      obtain ⟨b, more, heq, hstart⟩ := hgrammatical.isNumberStart tail'
      rw [hliteral] at heq
      rw [heq, scanBody_number hstart]
    rw [Columnar.scanToken, (blanks_append hb ht).1, (blanks_append hb ht).2, hbody, scanNumber,
      hparts hn]
    simp only [not_true_eq_false, and_false, if_false, hgrammatical.flaw?]
    rw [htoken]
    rfl
  · have hvacuous : ∀ tail : List UInt8, t.isNumber = true →
        ∀ b ∈ tail.head?, continuesNumber b = false := fun _ hn' => absurd hn' hn
    rw [ht.scanToken hb (hvacuous tail)] at h
    rw [ht.scanToken hb (hvacuous tail'), h]

end

/-- A token before more bytes, unless it is a number that touches them and goes on. -/
theorem scanToken_append_of {s w : Nat} {bytes more : List UInt8} {t : Token}
    (h : scanToken true bytes = .token t s w)
    (hmore : t.isNumber = true → s + w = bytes.length →
      ∀ b ∈ more.head?, continuesNumber b = false) :
    scanToken true (bytes ++ more) = .token t s w := by
  obtain ⟨blanks, text, tail, rfl, hb, ht, hs, hw⟩ := exists_of_scanToken h
  rw [List.append_assoc, List.append_assoc]
  by_cases htail : tail = []
  · subst htail
    rw [List.nil_append, ← hs, ← hw]
    refine ht.scanToken hb fun hn => hmore hn ?_
    rw [List.append_nil, List.length_append, hs, hw]
  · refine ht.scanToken_congr hb h fun hn => ?_
    obtain ⟨-, -, hrest⟩ := ht.splitNumber hb hn h
    rw [← List.append_assoc, splitNumber_append (by rw [hrest]; exact htail), hrest]

/-- A token before fewer bytes: those that are left out come behind it. -/
theorem scanToken_of_append {s w : Nat} {bytes more : List UInt8} {t : Token}
    (h : scanToken true (bytes ++ more) = .token t s w) (hle : s + w ≤ bytes.length) :
    scanToken true bytes = .token t s w := by
  obtain ⟨blanks, text, rest, heq, hb, ht, rfl, rfl⟩ := exists_of_scanToken h
  -- the bytes reach to behind the token
  obtain ⟨tail, rfl, rfl⟩ : ∃ tail, bytes = blanks ++ (text ++ tail) ∧ rest = tail ++ more := by
    rw [← List.append_assoc] at heq
    rcases List.append_eq_append_iff.mp heq with ⟨front, hfront, hmore⟩ | ⟨tail, hbytes, hrest⟩
    · have hlen := congrArg List.length hfront
      simp only [List.length_append] at hlen
      obtain rfl : front = [] := List.eq_nil_of_length_eq_zero (by omega)
      rw [List.append_nil] at hfront
      exact ⟨[], by rw [List.append_nil, hfront], hmore.symm⟩
    · exact ⟨tail, by rw [hbytes, List.append_assoc], hrest⟩
  rw [heq] at h
  by_cases htail : tail = []
  · subst htail
    exact ht.scanToken hb fun _ => nofun
  · refine ht.scanToken_congr hb h fun hn => ?_
    obtain ⟨-, -, hrest⟩ := ht.splitNumber hb hn h
    rw [← List.append_assoc] at hrest ⊢
    exact splitNumber_of_append htail hrest

/-- No digit follows a number. -/
theorem isDigitByte_of_number {s w : Nat} {bytes : List UInt8} {t : Token}
    (h : scanToken true bytes = .token t s w) (hn : t.isNumber = true) :
    ∀ b ∈ (bytes.drop (s + w)).head?, isDigitByte b = false := by
  obtain ⟨blanks, text, tail, rfl, hb, ht, rfl, rfl⟩ := exists_of_scanToken h
  obtain ⟨hscan, hliteral, hrest⟩ := ht.splitNumber hb hn h
  obtain ⟨-, -, hgrammatical, -⟩ := exists_of_scanNumber hscan
  have hle := hgrammatical.length_rest_le tail
  rw [hliteral, hrest] at hle
  rw [← List.append_assoc, ← List.length_append, List.drop_left]
  -- a digit would be split off
  cases tail with
  | nil => nofun
  | cons b tail =>
    rintro _ ⟨⟩
    by_contra hdigit
    have hsplit : (splitDigitBytes (b :: tail)).2 = (splitDigitBytes tail).2 := by
      rw [splitDigitBytes, List.dropWhile_cons, if_pos (by simpa using hdigit)]
      rfl
    have htail := length_splitDigitBytes_le tail
    rw [hsplit, List.length_cons] at hle
    omega

/-! ### Ends of tokens -/

theorem NumberParts.IsGrammatical.isBlankByte_eq_false {p : NumberParts} (h : p.IsGrammatical) :
    ∀ b ∈ p.literal, isBlankByte b = false := by
  have hdigit : ∀ {b : UInt8}, isDigitByte b = true → isBlankByte b = false := by
    intro b hb
    cases hblank : isBlankByte b with
    | false => rfl
    | true =>
      rcases eq_of_isBlankByte hblank with rfl | rfl | rfl | rfl <;> cases hb
  intro b hb
  simp only [literal, List.mem_append] at hb
  rcases hb with ((hb | hb) | hb) | hb
  · unfold signBytes at hb
    split at hb
    · rw [List.mem_singleton.mp hb]
      rfl
    · cases hb
  · exact hdigit (h.whole b hb)
  · unfold fractionBytes at hb
    cases hf : p.fraction with
    | none =>
      rw [hf] at hb
      cases hb
    | some ds =>
      rw [hf] at hb
      rcases List.mem_cons.mp hb with rfl | hb
      · rfl
      · exact hdigit (h.fraction ds hf b hb)
  · unfold exponentBytes at hb
    cases he : p.exponent with
    | none =>
      rw [he] at hb
      cases hb
    | some e =>
      rw [he] at hb
      rcases List.mem_append.mp hb with hb | hb
      · have hmarks : ∀ m ∈ exponentMarks, (m.any isBlankByte) = false := by decide
        exact Bool.eq_false_of_not_eq_true (List.any_eq_false.mp (hmarks _ (h.mark e he)) b hb)
      · exact hdigit (h.exponent e he b hb)

/-- No token ends with a blank. -/
theorem Spells.exists_concat {t : Token} {text : List UInt8} (h : Spells t text) :
    ∃ front b, text = front ++ [b] ∧ isBlankByte b = false := by
  cases h with
  | @mark _ b h =>
    have hmarks : ∀ m ∈ markBytes, isBlankByte m.2 = false := by decide
    exact ⟨[], b, rfl, hmarks _ (mem_markBytes h)⟩
  | word h =>
    rcases wordBytes_cases h with ⟨-, rfl⟩ | ⟨-, rfl⟩ | ⟨-, rfl⟩
    · exact ⟨[0x6e, 0x75, 0x6c], 0x6c, rfl, rfl⟩
    · exact ⟨[0x74, 0x72, 0x75], 0x65, rfl, rfl⟩
    · exact ⟨[0x66, 0x61, 0x6c, 0x73], 0x65, rfl, rfl⟩
  | @string content _ h => exact ⟨Window.quote :: content, Window.quote, rfl, rfl⟩
  | @number p h =>
    obtain ⟨b, more, heq, -⟩ := h.isNumberStart []
    have hne : p.literal ≠ [] := by
      intro hnil
      rw [hnil] at heq
      cases heq
    refine ⟨p.literal.dropLast, p.literal.getLast hne, (List.dropLast_concat_getLast hne).symm, ?_⟩
    exact h.isBlankByte_eq_false _ (List.getLast_mem hne)

/-- A token that a number could go on with starts with a digit. -/
theorem Spells.isDigitByte_of_continues {t : Token} {text : List UInt8} (h : Spells t text) :
    ∀ b ∈ text.head?, continuesNumber b = true → isDigitByte b = true := by
  cases h with
  | @mark _ b h =>
    have hmarks : ∀ m ∈ markBytes, continuesNumber m.2 = false := by decide
    rintro _ ⟨⟩ hb
    rw [hmarks _ (mem_markBytes h)] at hb
    cases hb
  | word h =>
    rcases wordBytes_cases h with ⟨-, rfl⟩ | ⟨-, rfl⟩ | ⟨-, rfl⟩
    all_goals
      rintro _ ⟨⟩ hb
      cases hb
  | string h =>
    rintro _ ⟨⟩ hb
    cases hb
  | @number p h =>
    obtain ⟨b, more, heq, hstart⟩ := h.isNumberStart []
    rw [List.append_nil] at heq
    rw [heq]
    rintro _ ⟨⟩ hb
    rcases hstart with rfl | hdigit
    · cases hb
    · exact hdigit

/-! ### All tokens -/

/-- **Texts are joined**: behind a text the tokens of another one are found, unless a number that
touches it goes on there. -/
theorem lex_append_of {offset offset' : Nat} {bytes more : List UInt8}
    (h : (lex true offset bytes).stop = .finished offset')
    (hmore : ∀ t ∈ (lex true offset bytes).tokens.getLast?, t.token.isNumber = true →
      t.span.stop = offset + bytes.length → ∀ b ∈ more.head?, continuesNumber b = false) :
    lex true offset (bytes ++ more)
      = ⟨(lex true offset bytes).tokens ++ (lex true (offset + bytes.length) more).tokens,
          (lex true (offset + bytes.length) more).stop⟩ := by
  fun_induction lex true offset bytes with
  | case1 offset bytes t s w hscan rest ih =>
    have hplace := add_length_drop_of_scanToken hscan
    have hend : offset + s + w + (bytes.drop (s + w)).length = offset + bytes.length := by omega
    have hscan' : scanToken true (bytes ++ more) = .token t s w := by
      refine scanToken_append_of hscan fun hn hlen => hmore ⟨t, ⟨offset + s, w⟩⟩ ?_ hn ?_
      · -- nothing is left for another token
        have hnil : rest.tokens = [] := by
          have hdrop : bytes.drop (s + w) = [] := List.drop_eq_nil_of_le (by omega)
          have hend : lex true (offset + s + w) [] = ⟨[], .finished (offset + s + w)⟩ :=
            lex_of_finished (s := 0) rfl
          simp only [rest, hdrop, hend]
        rw [hnil]
        rfl
      · rw [Span.stop]
        simp only
        omega
    have hothers : ∀ u ∈ rest.tokens.getLast?, u.token.isNumber = true →
        u.span.stop = offset + bytes.length → ∀ b ∈ more.head?, continuesNumber b = false := by
      intro u hu
      refine hmore u ?_
      rw [Option.mem_def] at hu ⊢
      rw [List.getLast?_cons, hu]
      rfl
    have hdrop : (bytes ++ more).drop (s + w) = bytes.drop (s + w) ++ more :=
      List.drop_append_of_le_length (by omega)
    rw [hend] at ih
    rw [lex_of_token hscan', hdrop, ih h hothers]
    rfl
  | case2 offset bytes s hscan =>
    exact lex_blanks (exists_of_finished hscan).1 true offset more
  | case3 | case4 => cases h

/-- The first token of some bytes behind its blanks, and what follows it. -/
theorem exists_of_tokens_lex {offset : Nat} {bytes : List UInt8} {x : Located} {ts : List Located}
    (h : (lex true offset bytes).tokens = x :: ts) : ∃ blanks text rest,
      bytes = blanks ++ text ++ rest ∧ (∀ b ∈ blanks, isBlankByte b = true) ∧
      Spells x.token text ∧ x.span = ⟨offset + blanks.length, text.length⟩ ∧
      scanToken true bytes = .token x.token blanks.length text.length ∧
      lex true (offset + (blanks ++ text).length) rest
        = ⟨ts, (lex true offset bytes).stop⟩ := by
  cases hscan : scanToken true bytes with
  | token t s w =>
    obtain ⟨blanks, text, rest, rfl, hb, ht, rfl, rfl⟩ := exists_of_scanToken hscan
    rw [← List.append_assoc] at hscan h ⊢
    rw [lex_of_token hscan] at h ⊢
    obtain ⟨rfl, rfl⟩ := List.cons.inj h
    refine ⟨blanks, text, rest, rfl, hb, ht, rfl, rfl, ?_⟩
    rw [List.length_append, ← Nat.add_assoc, ← List.length_append, List.drop_left]
  | finished s =>
    rw [lex_of_finished hscan] at h
    cases h
  | incomplete s =>
    rw [lex_of_incomplete hscan] at h
    cases h
  | error s cause place length =>
    rw [lex_of_error hscan] at h
    cases h

/-- Bytes that start with a token, and what follows it. -/
theorem lex_first_append {blanks text rest more : List UInt8} {t : Token}
    (h : scanToken true (blanks ++ text ++ (rest ++ more)) = .token t blanks.length text.length)
    (offset : Nat) : lex true offset (blanks ++ text ++ rest)
      = ⟨⟨t, ⟨offset + blanks.length, text.length⟩⟩
            :: (lex true (offset + (blanks ++ text).length) rest).tokens,
          (lex true (offset + (blanks ++ text).length) rest).stop⟩ := by
  have hscan : scanToken true (blanks ++ text ++ rest) = .token t blanks.length text.length := by
    rw [← List.append_assoc] at h
    refine scanToken_of_append h ?_
    rw [List.length_append, List.length_append]
    omega
  rw [lex_of_token hscan, ← List.length_append, List.drop_left, List.length_append, Nat.add_assoc]

/-- **Texts are cut**: what comes before the end of a token is a text of the tokens up to there, and
what comes behind it is one of the others.  It ends with no blank, and no digit follows a number. -/
theorem exists_of_lex_append {offset : Nat} {bytes : List UInt8} {front back : List Located}
    {x : Located} (h : (lex true offset bytes).tokens = front ++ x :: back) :
    ∃ u v, bytes = u ++ v ∧ (∃ w c, u = w ++ [c] ∧ isBlankByte c = false) ∧
      (x.token.isNumber = true → ∀ b ∈ v.head?, isDigitByte b = false) ∧
      lex true offset u = ⟨front ++ [x], .finished (offset + u.length)⟩ ∧
      lex true (offset + u.length) v = ⟨back, (lex true offset bytes).stop⟩ := by
  induction front generalizing offset bytes with
  | nil =>
    obtain ⟨blanks, text, rest, rfl, hb, ht, hspan, hscan, hrest⟩ := exists_of_tokens_lex h
    refine ⟨blanks ++ text, rest, rfl, ?_, fun hn => ?_, ?_, hrest⟩
    · obtain ⟨w, c, rfl, hc⟩ := ht.exists_concat
      exact ⟨blanks ++ w, c, (List.append_assoc _ _ _).symm, hc⟩
    · have hdigit := isDigitByte_of_number hscan hn
      rwa [← List.length_append, List.drop_left] at hdigit
    · have hend : lex true (offset + (blanks ++ text).length) []
          = ⟨[], .finished (offset + (blanks ++ text).length)⟩ := lex_of_finished (s := 0) rfl
      have hfirst := @lex_first_append blanks text [] rest x.token hscan offset
      rw [List.append_nil, hend, ← hspan] at hfirst
      exact hfirst
  | cons t front ih =>
    obtain ⟨blanks, text, rest, rfl, hb, ht, hspan, hscan, hrest⟩ := exists_of_tokens_lex h
    have htokens : (lex true (offset + (blanks ++ text).length) rest).tokens
        = front ++ x :: back := congrArg Lexed.tokens hrest
    obtain ⟨u, v, rfl, ⟨w, c, hend, hc⟩, hnumber, hu, hv⟩ := ih htokens
    have hplace : offset + (blanks ++ text).length + u.length
        = offset + (blanks ++ text ++ u).length := by
      simp only [List.length_append, Nat.add_assoc]
    have hfirst := lex_first_append hscan offset
    rw [hu, hplace, ← hspan] at hfirst
    rw [hplace, hrest] at hv
    refine ⟨blanks ++ text ++ u, v, (List.append_assoc _ _ _).symm, ?_, hnumber, hfirst, hv⟩
    exact ⟨blanks ++ text ++ w, c, by rw [hend, List.append_assoc (blanks ++ text)], hc⟩

end Columnar
