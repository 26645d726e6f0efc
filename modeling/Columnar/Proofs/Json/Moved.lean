import Columnar.Json.Intake
import Columnar.Proofs.Ingestion
import Columnar.Proofs.Json.Places

/-!
# Texts further on

Places are counted from the start of the input, and values from the first one.  A text that starts
further on has the same tokens at places that are as much further on, the grammar follows them just
so, and the builder takes the same pushes.  What comes of it differs by the place of an error, or
by the number of values that come before.

## Main definitions

* `Span.behind`, `Located.behind`, `ScanError.behind`, `JsonError.behind`, `Ending.behind` — places
  further on.
* `Progress.behind` — a place behind some values.
* `Intake.behind` — what comes of a text further on.

## Main results

* `lex_behind` — the tokens of a text further on.
* `Progress.advance_behind` — one token further on.
* `Builder.takeTokens_behind` — **a text further on is taken in just so.**
-/

namespace Columnar

/-! ### Places further on -/

/-- The same bytes in a text that starts `n` bytes further on. -/
def Span.behind (n : Nat) (s : Span) : Span := ⟨n + s.offset, s.length⟩

/-- The same token further on. -/
def Located.behind (n : Nat) (t : Located) : Located := ⟨t.token, t.span.behind n⟩

/-- The same error further on. -/
def ScanError.behind (n : Nat) (e : ScanError) : ScanError := ⟨e.cause, e.span.behind n⟩

/-- The same error further on. -/
def JsonError.behind (n : Nat) (e : JsonError) : JsonError := ⟨e.cause, e.span.behind n⟩

/-- The same reason further on. -/
def Stop.behind (n : Nat) : Stop → Stop
  | finished offset => finished (n + offset)
  | incomplete offset rest => incomplete (n + offset) rest
  | error offset e => error (n + offset) (e.behind n)

/-- The same reason further on. -/
def Ending.behind (n : Nat) : Ending → Ending
  | finished offset => finished (n + offset)
  | unscannable e => unscannable (e.behind n)
  | unreadable offset words => unreadable (n + offset) words

/-- The same place of a text behind `m` values. -/
def Progress.behind (m : Nat) (s : Progress) : Progress := ⟨s.frames, m + s.count⟩

/-- What comes of a text that starts `n` bytes further on, behind `m` values. -/
def Intake.behind (m n : Nat) (i : Intake) : Intake :=
  ⟨i.builder, (i.outcome.map (m + ·)).mapError (JsonError.behind n)⟩

@[simp] theorem Located.token_behind (n : Nat) (t : Located) : (t.behind n).token = t.token := rfl

@[simp] theorem Located.span_behind (n : Nat) (t : Located) :
    (t.behind n).span = t.span.behind n := rfl

@[simp] theorem Progress.frames_behind (m : Nat) (s : Progress) :
    (s.behind m).frames = s.frames := rfl

@[simp] theorem Progress.expected_behind (m : Nat) (s : Progress) :
    (s.behind m).expected = s.expected := by
  obtain ⟨frames, count⟩ := s
  cases frames <;> rfl

theorem Stop.ending_behind (n : Nat) (s : Stop) : (s.behind n).ending = s.ending.behind n := by
  cases s <;> rfl

/-! ### Tokens -/

/-- The tokens of a text further on. -/
theorem lex_behind (atEof : Bool) (n offset : Nat) (bytes : List UInt8) :
    lex atEof (n + offset) bytes = ⟨(lex atEof offset bytes).tokens.map (Located.behind n),
      (lex atEof offset bytes).stop.behind n⟩ := by
  fun_induction lex atEof offset bytes with
  | case1 offset bytes t s w hscan more ih =>
    rw [lex_of_token hscan, Nat.add_assoc n, Nat.add_assoc n, ih]
    rfl
  | case2 offset bytes s hscan =>
    rw [lex_of_finished hscan, Nat.add_assoc]
    rfl
  | case3 offset bytes s hscan =>
    rw [lex_of_incomplete hscan, Nat.add_assoc]
    rfl
  | case4 offset bytes s cause place length hscan =>
    rw [lex_of_error hscan, Nat.add_assoc, Nat.add_assoc]
    rfl

/-! ### Values of tokens -/

theorem mapError_map {ε ε' α β : Type} (f : α → β) (g : ε → ε') (x : Except ε α) :
    (x.map f).mapError g = (x.mapError g).map f := by
  cases x <;> rfl

namespace StringContent

theorem unescape_behind (n offset : Nat) (cs : List Char) :
    unescape (n + offset) cs = (unescape offset cs).mapError (ScanError.behind n) := by
  fun_induction unescape offset cs with
  | case1 => rw [unescape_nil]; rfl
  | case2 offset rest x width hescape ih =>
    rw [unescape, if_pos rfl, hescape, mapError_map, ← ih, ← Nat.add_assoc, ← Nat.add_assoc]
  | case3 offset rest cause hescape =>
    rw [unescape, if_pos rfl, hescape]
    rfl
  | case4 offset c rest hc ih =>
    rw [unescape_cons_of_ne hc, mapError_map, ← ih, ← Nat.add_assoc]

theorem decode_behind (n offset : Nat) (content : List UInt8) (hasEscapes : Bool) :
    decode (n + offset) content hasEscapes
      = (decode offset content hasEscapes).mapError (ScanError.behind n) := by
  unfold decode
  cases Utf8.decode? content with
  | none =>
    rw [Nat.add_assoc]
    rfl
  | some cs =>
    cases hasEscapes with
    | false => rfl
    | true =>
      simp only [if_true]
      rw [unescape_behind, mapError_map]

end StringContent

theorem Number.parse_behind (shape : NumberShape) (n offset length : Nat) (bytes : List UInt8) :
    parse shape (n + offset) length bytes
      = (parse shape offset length bytes).mapError (ScanError.behind n) := by
  unfold parse
  cases ofLiteral? shape (bytes.take length) <;> rfl

section

variable (o : ReadOptions) (m n : Nat) (s : Progress) (t : Located)

/-- A string further on is decoded just so. -/
theorem decode_token_behind (content : List UInt8) (hasEscapes : Bool) :
    StringContent.decode ((t.behind n).span.offset + 1) content hasEscapes
      = (StringContent.decode (t.span.offset + 1) content hasEscapes).mapError
          (ScanError.behind n) :=
  StringContent.decode_behind n (t.span.offset + 1) content hasEscapes

/-- The push of a token further on. -/
theorem ReadOptions.scalarPush_behind (expected : Expected) :
    o.scalarPush expected (t.behind n)
      = (o.scalarPush expected t).mapError (JsonError.behind n) := by
  unfold scalarPush
  rw [Located.token_behind]
  cases t.token with
  | string content hasEscapes =>
    simp only [decode_token_behind]
    cases StringContent.decode (t.span.offset + 1) content hasEscapes <;> rfl
  | number literal shape =>
    simp only [Located.span_behind, Span.behind, Number.parse_behind]
    cases Number.parse shape t.span.offset literal.length literal with
    | error e => rfl
    | ok x =>
      simp only [Except.mapError]
      cases o.numberPush? x <;> rfl
  | objectStart | objectEnd | arrayStart | arrayEnd | colon | comma | null | bool => rfl

namespace Progress

/-- What a token leads to, behind `m` values and `n` bytes. -/
def Advance.behind (m n : Nat) : Advance → Advance
  | .ok (s, p) => .ok (s.behind m, p)
  | .error e => .error (e.behind n)

theorem complete_behind : (s.behind m).complete = s.complete.behind m := by
  obtain ⟨frames, count⟩ := s
  cases frames <;> rfl

theorem advanceValue_behind : (s.behind m).advanceValue o (t.behind n)
    = Advance.behind m n (s.advanceValue o t) := by
  unfold advanceValue
  rw [Located.token_behind, frames_behind, expected_behind, o.scalarPush_behind]
  split
  · rfl
  · split
    · rfl
    · rfl
    · rw [complete_behind]
      cases o.scalarPush s.expected t <;> rfl

theorem advanceKey_behind (outer : List Frame) : (s.behind m).advanceKey o outer (t.behind n)
    = Advance.behind m n (s.advanceKey o outer t) := by
  unfold advanceKey
  rw [Located.token_behind, expected_behind]
  cases t.token with
  | string content hasEscapes =>
    simp only [decode_token_behind]
    cases StringContent.decode (t.span.offset + 1) content hasEscapes <;> rfl
  | objectStart | objectEnd | arrayStart | arrayEnd | colon | comma | null | bool | number => rfl

/-- **One token further on.** -/
theorem advance_behind : (s.behind m).advance o (t.behind n)
    = Advance.behind m n (s.advance o t) := by
  have hclose : ∀ (outer : List Frame) (p : Push),
      (.ok (complete { s.behind m with frames := outer }, some p) : Advance)
        = Advance.behind m n (.ok (complete { s with frames := outer }, some p)) := by
    intro outer p
    have hcomplete := complete_behind m { s with frames := outer }
    exact congrArg (fun x => Except.ok (x, some p)) hcomplete
  unfold advance
  rw [Located.token_behind, frames_behind, expected_behind]
  -- a container ends, a mark or a wrong token comes, or a key or a value
  split
  all_goals first
    | rfl
    | exact hclose _ _
    | exact advanceKey_behind o m n s t _
    | exact advanceValue_behind o m n s t

end Progress

namespace Builder

/-- **A text further on is taken in just so.** -/
theorem takeTokens_behind (b : Builder) (ending : Ending) (ts : List Located) :
    b.takeTokens o (ending.behind n) (s.behind m) (ts.map (Located.behind n))
      = (b.takeTokens o ending s ts).behind m n := by
  induction ts generalizing b s with
  | nil =>
    cases ending with
    | finished offset =>
      obtain ⟨frames, count⟩ := s
      cases frames <;> rfl
    | unscannable | unreadable => rfl
  | cons t ts ih =>
    have hadvance := s.advance_behind o m n t
    rw [List.map_cons]
    cases ht : s.advance o t with
    | error e =>
      rw [ht] at hadvance
      rw [takeTokens_of_error hadvance, takeTokens_of_error ht]
      rfl
    | ok r =>
      obtain ⟨s', q⟩ := r
      rw [ht] at hadvance
      cases q with
      | none => rw [takeTokens_of_none hadvance, takeTokens_of_none ht, ih]
      | some p =>
        cases hp : b.push p with
        | error r =>
          rw [takeTokens_of_refused hadvance hp, takeTokens_of_refused ht hp]
          rfl
        | ok b' => rw [takeTokens_of_ok hadvance hp, takeTokens_of_ok ht hp, ih]

end Builder

end

end Columnar
