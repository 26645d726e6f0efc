import Columnar.Proofs.Json.Scan

/-!
# All tokens of bytes that arrive

The tokens of some bytes are those of their front, and behind these the tokens of what the front
leaves and the rest.

## Main definitions

* `Lexed.resume` — the tokens of a front, and those that are found behind them.

## Main results

* `lex_append` — **tokens may be found piece by piece.**
-/

namespace Columnar

/-! ### One token -/

theorem lex_of_token {atEof : Bool} {offset s w : Nat} {bytes : List UInt8} {t : Token}
    (h : scanToken atEof bytes = .token t s w) : lex atEof offset bytes
      = ⟨⟨t, ⟨offset + s, w⟩⟩ :: (lex atEof (offset + s + w) (bytes.drop (s + w))).tokens,
          (lex atEof (offset + s + w) (bytes.drop (s + w))).stop⟩ := by
  rw [lex]
  split <;> rename_i heq <;> rw [h] at heq <;> cases heq
  rfl

theorem lex_of_finished {atEof : Bool} {offset s : Nat} {bytes : List UInt8}
    (h : scanToken atEof bytes = .finished s) :
    lex atEof offset bytes = ⟨[], .finished (offset + s)⟩ := by
  rw [lex]
  split <;> rename_i heq <;> rw [h] at heq <;> cases heq
  rfl

theorem lex_of_incomplete {atEof : Bool} {offset s : Nat} {bytes : List UInt8}
    (h : scanToken atEof bytes = .incomplete s) :
    lex atEof offset bytes = ⟨[], .incomplete (offset + s) (bytes.drop s)⟩ := by
  rw [lex]
  split <;> rename_i heq <;> rw [h] at heq <;> cases heq
  rfl

theorem lex_of_error {atEof : Bool} {offset s place length : Nat} {bytes : List UInt8}
    {cause : ScanCause} (h : scanToken atEof bytes = .error s cause place length) :
    lex atEof offset bytes
      = ⟨[], .error (offset + s) ⟨cause, ⟨offset + place, length⟩⟩⟩ := by
  rw [lex]
  split <;> rename_i heq <;> rw [h] at heq <;> cases heq
  rfl

/-- Blanks in front only move places. -/
theorem lex_blanks {blanks : List UInt8} (h : ∀ b ∈ blanks, isBlankByte b = true) (atEof : Bool)
    (offset : Nat) (bytes : List UInt8) :
    lex atEof offset (blanks ++ bytes) = lex atEof (offset + blanks.length) bytes := by
  have hscan := scanToken_blanks h atEof bytes
  have hplace : ∀ n, offset + (n + blanks.length) = offset + blanks.length + n := by
    intro n
    omega
  cases hs : scanToken atEof bytes with
  | token t s w =>
    rw [hs] at hscan
    have hdrop : (blanks ++ bytes).drop (s + blanks.length + w) = bytes.drop (s + w) := by
      rw [Nat.add_right_comm, Nat.add_comm, List.drop_length_add_append]
    rw [lex_of_token hscan, lex_of_token hs, hdrop, hplace]
  | finished s =>
    rw [hs] at hscan
    rw [lex_of_finished hscan, lex_of_finished hs, hplace]
  | incomplete s =>
    rw [hs] at hscan
    have hdrop : (blanks ++ bytes).drop (s + blanks.length) = bytes.drop s := by
      rw [Nat.add_comm, List.drop_length_add_append]
    rw [lex_of_incomplete hscan, lex_of_incomplete hs, hdrop, hplace]
  | error s cause place length =>
    rw [hs] at hscan
    rw [lex_of_error hscan, lex_of_error hs, hplace, hplace]

/-- What is left of an incomplete token is part of the bytes. -/
theorem length_le_of_stop_lex {atEof : Bool} {offset offset' : Nat} {bytes rest : List UInt8}
    (h : (lex atEof offset bytes).stop = .incomplete offset' rest) :
    rest.length ≤ bytes.length := by
  fun_induction lex atEof offset bytes with
  | case1 offset bytes t s w hscan more ih =>
    refine Nat.le_trans (ih h) ?_
    rw [List.length_drop]
    exact Nat.sub_le _ _
  | case2 | case4 => cases h
  | case3 offset bytes s hscan =>
    cases h
    rw [List.length_drop]
    exact Nat.sub_le _ _

/-! ### Tokens piece by piece -/

/-- The tokens of a front, and those that are found from where it leaves off. -/
def Lexed.resume (front : Lexed) (next : Nat → List UInt8 → Lexed) : Lexed :=
  match front.stop with
  | .finished offset => ⟨front.tokens ++ (next offset []).tokens, (next offset []).stop⟩
  | .incomplete offset rest => ⟨front.tokens ++ (next offset rest).tokens, (next offset rest).stop⟩
  | .error _ _ => front

theorem Lexed.resume_cons (t : Located) (front : Lexed) (next : Nat → List UInt8 → Lexed) :
    (⟨t :: front.tokens, front.stop⟩ : Lexed).resume next
      = ⟨t :: (front.resume next).tokens, (front.resume next).stop⟩ := by
  obtain ⟨tokens, stop⟩ := front
  cases stop <;> rfl

/-- **Tokens may be found piece by piece**: the bytes that a front leaves are looked at again with
those that follow. -/
theorem lex_append (atEof : Bool) (offset : Nat) (bytes more : List UInt8) :
    lex atEof offset (bytes ++ more) = (lex false offset bytes).resume fun offset' rest =>
      lex atEof offset' (rest ++ more) := by
  -- the induction is on the tokens of the front
  fun_induction lex false offset bytes with
  | case1 offset bytes t s w h more' ih =>
    have hmore := scanToken_append (by rw [h]; trivial) atEof more
    rw [h] at hmore
    obtain ⟨blanks, text, rest, rfl, -, -, rfl, rfl⟩ := exists_of_scanToken h
    have hdrop : ∀ tail, (blanks ++ (text ++ tail)).drop (blanks.length + text.length) = tail := by
      intro tail
      rw [← List.append_assoc, ← List.length_append, List.drop_left]
    rw [Lexed.resume_cons, lex_of_token hmore, ← ih, hdrop rest, List.append_assoc,
      List.append_assoc, hdrop]
  | case2 offset bytes s h =>
    obtain ⟨hblanks, rfl⟩ := exists_of_finished h
    exact lex_blanks hblanks atEof offset more
  | case3 offset bytes s h =>
    obtain ⟨blanks, rest, rfl, hblanks, rfl, -⟩ := exists_of_incomplete h
    rw [List.append_assoc, lex_blanks hblanks, List.drop_left]
    rfl
  | case4 offset bytes s cause place length h =>
    have hmore := scanToken_append (by rw [h]; trivial) atEof more
    rw [h] at hmore
    exact lex_of_error hmore

end Columnar
