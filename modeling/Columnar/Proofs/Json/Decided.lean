import Columnar.Proofs.Json.Certain

/-!
# Tokens that are decided early

A scanner keeps nothing but its place in a buffer.  What it finds there, a token or a fault, it
finds again when bytes have been added at the end of the buffer, whether or not these are the last:
the decision never rests on where the buffer happens to end.  A token that is found lies between
the blanks and the new place; one that the buffer cuts off leaves the scanner where it starts.

## Main definitions

* `Found`, `findAt` — what is found at a place of a buffer, and the place that comes next.
* `IsFirstByte` — the first byte from a place on that is no blank.

## Main results

* `lex_eq_findAt` — the tokens of a buffer are found one after the other.
* `findAt_append` — **what is decided stays.**
* `findAt_decided` — what is decided stays, and a place is left only for a token that lies before
  the next one.
-/

namespace Columnar

/-- What is found at a place of a buffer.  All places are counted from the start of the buffer. -/
inductive Found
  /-- A token, and the place behind it. -/
  | token (t : Located) (next : Nat)
  /-- Nothing but blanks up to this place. -/
  | finished (next : Nat)
  /-- The bytes so far of a token that goes on behind the buffer; its first byte comes next. -/
  | incomplete (span : Span)
  /-- A fault, and the place of the text at fault. -/
  | error (e : ScanError) (next : Nat)
  deriving DecidableEq, Repr

namespace Found

/-- Whether there is a token or a fault. -/
def IsDecided : Found → Prop
  | token _ _ => True
  | finished _ => False
  | incomplete _ => False
  | error _ _ => True

end Found

/-- What is found at a place of a buffer, which holds all that there is or not. -/
def findAt (atEof : Bool) (buffer : List UInt8) (place : Nat) : Found :=
  match scanToken atEof (buffer.drop place) with
  | .token t skipped width => .token ⟨t, ⟨place + skipped, width⟩⟩ (place + skipped + width)
  | .finished skipped => .finished (place + skipped)
  | .incomplete skipped =>
    .incomplete ⟨place + skipped, ((buffer.drop place).drop skipped).length⟩
  | .error skipped cause offset length =>
    .error ⟨cause, ⟨place + offset, length⟩⟩ (place + skipped)

/-- The first byte from a place on that is no blank stands at `start`. -/
structure IsFirstByte (buffer : List UInt8) (place start : Nat) : Prop where
  /-- It does not stand before the place. -/
  le : place ≤ start
  /-- Only blanks stand in between. -/
  blanks : ∀ i, place ≤ i → i < start → ∃ b, buffer[i]? = some b ∧ isBlankByte b = true
  /-- It is there, and no blank. -/
  byte : ∃ b, buffer[start]? = some b ∧ isBlankByte b = false

section

variable {atEof : Bool} {buffer : List UInt8} {place : Nat}

theorem findAt_of_incomplete {s : Nat} (h : scanToken atEof (buffer.drop place) = .incomplete s) :
    findAt atEof buffer place = .incomplete ⟨place + s, (buffer.drop (place + s)).length⟩ := by
  simp only [findAt, h, List.drop_drop]

theorem exists_of_findAt_token {t : Located} {next : Nat}
    (h : findAt atEof buffer place = .token t next) :
    ∃ s w, scanToken atEof (buffer.drop place) = .token t.token s w ∧ t.span = ⟨place + s, w⟩ ∧
      next = place + s + w := by
  unfold findAt at h
  split at h <;> cases h
  exact ⟨_, _, ‹_›, rfl, rfl⟩

theorem exists_of_findAt_incomplete {span : Span}
    (h : findAt atEof buffer place = .incomplete span) :
    ∃ s, scanToken atEof (buffer.drop place) = .incomplete s ∧
      span = ⟨place + s, (buffer.drop (place + s)).length⟩ := by
  unfold findAt at h
  split at h <;> cases h
  exact ⟨_, ‹_›, by rw [List.drop_drop]⟩

/-- The tokens of a buffer from a place on are the one that is found there, and those from the
place that comes next. -/
theorem lex_eq_findAt (atEof : Bool) (buffer : List UInt8) (place : Nat) :
    lex atEof place (buffer.drop place) = match findAt atEof buffer place with
      | .token t next => ⟨t :: (lex atEof next (buffer.drop next)).tokens,
          (lex atEof next (buffer.drop next)).stop⟩
      | .finished next => ⟨[], .finished next⟩
      | .incomplete span => ⟨[], .incomplete span.offset (buffer.drop span.offset)⟩
      | .error e next => ⟨[], .error next e⟩ := by
  unfold findAt
  cases hscan : scanToken atEof (buffer.drop place) with
  | token t s w => rw [lex_of_token hscan, List.drop_drop, ← Nat.add_assoc]
  | finished s => rw [lex_of_finished hscan]
  | incomplete s => rw [lex_of_incomplete hscan, List.drop_drop]
  | error s cause offset length => rw [lex_of_error hscan]

/-! ### What is decided stays -/

theorem isSettled_of_isDecided (h : (findAt atEof buffer place).IsDecided) :
    (scanToken atEof (buffer.drop place)).IsSettled := by
  unfold findAt at h
  cases hscan : scanToken atEof (buffer.drop place) with
  | token | error => trivial
  | finished | incomplete =>
    rw [hscan] at h
    exact h.elim

/-- What is decided stands inside the buffer. -/
theorem lt_length_of_isDecided (h : (findAt atEof buffer place).IsDecided) :
    place < buffer.length := by
  by_contra hle
  have hsettled := isSettled_of_isDecided h
  rw [List.drop_of_length_le (Nat.not_lt.mp hle)] at hsettled
  exact hsettled

/-- **What is decided stays**, when bytes are added at the end of the buffer. -/
theorem findAt_append (h : (findAt false buffer place).IsDecided) (atEof : Bool)
    (more : List UInt8) : findAt atEof (buffer ++ more) place = findAt false buffer place := by
  have hsettled := isSettled_of_isDecided h
  have hdrop : (buffer ++ more).drop place = buffer.drop place ++ more :=
    List.drop_append_of_le_length (Nat.le_of_lt (lt_length_of_isDecided h))
  have hscan := scanToken_append hsettled atEof more
  rw [← hdrop] at hscan
  unfold findAt
  rw [hscan]
  cases hfound : scanToken false (buffer.drop place) with
  | token | finished | error => rfl
  | incomplete =>
    rw [hfound] at hsettled
    exact hsettled.elim

/-! ### Where things stand -/

theorem Scanned.StartsAt.unique {r : Scanned} {m n : Nat} (hm : r.StartsAt m)
    (hn : r.StartsAt n) : m = n := by
  cases r with
  | finished => exact hm.elim
  | token | incomplete | error => exact hm.symm.trans hn

/-- What is not behind blanks alone starts with the first byte that is none. -/
theorem isFirstByte_of_startsAt {s : Nat}
    (h : (scanToken atEof (buffer.drop place)).StartsAt s) :
    IsFirstByte buffer place (place + s) := by
  have hne : (buffer.drop place).dropWhile isBlankByte ≠ [] := by
    intro hnil
    rw [scanToken, hnil] at h
    exact h
  obtain ⟨b, rest, hrest⟩ := List.exists_cons_of_ne_nil hne
  have hstarts := startsAt_scanBody atEof ((buffer.drop place).takeWhile isBlankByte).length hne
  obtain rfl : s = ((buffer.drop place).takeWhile isBlankByte).length := h.unique hstarts
  have hb := List.head_dropWhile_not isBlankByte hne
  have hsplit := List.takeWhile_append_dropWhile (p := isBlankByte) (l := buffer.drop place)
  have hblanks : ∀ b ∈ (buffer.drop place).takeWhile isBlankByte, isBlankByte b = true :=
    fun b hb => List.all_eq_true.mp List.all_takeWhile b hb
  simp only [hrest, List.head_cons] at hb
  rw [hrest] at hsplit
  -- from here on, all that counts is how the buffer splits at the place
  generalize (buffer.drop place).takeWhile isBlankByte = blanks at *
  have hget : ∀ i, buffer[place + i]? = (blanks ++ b :: rest)[i]? := by
    intro i
    rw [hsplit, List.getElem?_drop]
  refine ⟨Nat.le_add_right _ _, fun i hle hlt => ?_, b, ?_, hb⟩
  · obtain ⟨j, rfl⟩ := Nat.exists_eq_add_of_le hle
    have hj : j < blanks.length := by omega
    refine ⟨blanks[j], ?_, hblanks _ (List.getElem_mem hj)⟩
    rw [hget, List.getElem?_append_left hj, List.getElem?_eq_getElem hj]
  · rw [hget, List.getElem?_append_right (Nat.le_refl _), Nat.sub_self, List.getElem?_cons_zero]

/-- **A token lies between the blanks and the place that comes next.** -/
theorem token_placed {t : Located} {next : Nat} (h : findAt atEof buffer place = .token t next) :
    IsFirstByte buffer place t.span.offset ∧ place < next ∧ next ≤ buffer.length ∧
      t.span.offset + t.span.length = next ∧
      Spells t.token ((buffer.drop t.span.offset).take t.span.length) := by
  obtain ⟨s, w, hscan, hspan, rfl⟩ := exists_of_findAt_token h
  have hfirst : IsFirstByte buffer place (place + s) :=
    isFirstByte_of_startsAt (by rw [hscan]; rfl)
  have hwidth := width_pos_of_scanBody hscan
  have hlength := add_length_drop_of_scanToken hscan
  obtain ⟨blanks, text, rest, hdrop, -, hspells, rfl, rfl⟩ := exists_of_scanToken hscan
  rw [hspan]
  refine ⟨hfirst, by omega, ?_, rfl, ?_⟩
  · simp only [List.length_drop] at hlength
    omega
  · rwa [← List.drop_drop, hdrop, List.drop_left, List.take_left]

/-- **A token that is cut off has at least a byte**, and it is found again where it starts. -/
theorem incomplete_placed {span : Span} (h : findAt atEof buffer place = .incomplete span) :
    IsFirstByte buffer place span.offset ∧ 0 < span.length ∧
      span.offset + span.length = buffer.length ∧
      findAt atEof buffer span.offset = .incomplete span := by
  obtain ⟨s, hscan, rfl⟩ := exists_of_findAt_incomplete h
  have hfirst : IsFirstByte buffer place (place + s) :=
    isFirstByte_of_startsAt (by rw [hscan]; rfl)
  obtain ⟨b, hb, -⟩ := hfirst.byte
  obtain ⟨hlt, -⟩ := List.getElem?_eq_some_iff.mp hb
  have hstop : (lex atEof place (buffer.drop place)).stop
      = .incomplete (place + s) (buffer.drop (place + s)) := by
    rw [lex_eq_findAt, h]
  simp only [List.length_drop]
  refine ⟨hfirst, by omega, by omega, ?_⟩
  rw [findAt_of_incomplete (scanToken_of_stop_lex hstop), List.length_drop]
  rfl

end

/-- **What is decided before the end of the input is known stays** with all its places.  A place is
left for one behind it, and in between lie blanks and the token; a token that is cut off has its
first byte in the buffer, and is found again from there. -/
theorem findAt_decided (buffer : List UInt8) (place : Nat) :
    ((findAt false buffer place).IsDecided → ∀ atEof more,
      findAt atEof (buffer ++ more) place = findAt false buffer place) ∧
    (∀ atEof t next, findAt atEof buffer place = .token t next →
      IsFirstByte buffer place t.span.offset ∧ place < next ∧ next ≤ buffer.length ∧
        t.span.offset + t.span.length = next ∧
        Spells t.token ((buffer.drop t.span.offset).take t.span.length)) ∧
    ∀ atEof span, findAt atEof buffer place = .incomplete span →
      IsFirstByte buffer place span.offset ∧ 0 < span.length ∧
        span.offset + span.length = buffer.length ∧
        findAt atEof buffer span.offset = .incomplete span :=
  ⟨findAt_append, fun _ _ _ => token_placed, fun _ _ => incomplete_placed⟩

/-- Behind a blank, `-1` may go on until a comma shows that it does not. -/
theorem findAt_decided_number :
    findAt true ([0x20, 0x2d, 0x31, 0x2c] ++ [0x5d]) 0
        = .token ⟨.number [0x2d, 0x31] .signed, ⟨1, 2⟩⟩ 3 ∧
      Spells (.number [0x2d, 0x31] .signed) [0x2d, 0x31] ∧
      findAt false [0x20, 0x2d, 0x31] 1 = .incomplete ⟨1, 2⟩ := by
  have hdecided : findAt false [0x20, 0x2d, 0x31, 0x2c] 0
      = .token ⟨.number [0x2d, 0x31] .signed, ⟨1, 2⟩⟩ 3 := by decide
  refine ⟨?_, ?_, ?_⟩
  · refine ((findAt_decided [0x20, 0x2d, 0x31, 0x2c] 0).1 ?_ true [0x5d]).trans hdecided
    rw [hdecided]
    trivial
  · exact ((findAt_decided [0x20, 0x2d, 0x31, 0x2c] 0).2.1 false _ _ hdecided).2.2.2.2
  · exact ((findAt_decided [0x20, 0x2d, 0x31] 0).2.2 false ⟨1, 2⟩ (by decide)).2.2.2

end Columnar
