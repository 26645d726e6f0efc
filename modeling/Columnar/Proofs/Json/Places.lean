import Columnar.Json.Feed
import Columnar.Json.Grammar
import Columnar.Proofs.Json.Lex
import Columnar.Proofs.Json.Tree
import Columnar.Proofs.Utf8

/-!
# Where a text fails

Tokens stand one behind another, each over the bytes that spell it.  An error points at a byte of
the token that is at fault or, if there is no further token, at a place behind the last one, and
never behind the end of the text.  So the place of an error parts the tokens: those that end
before it have been taken, and the next one has not.

## Main definitions

* `Located.IsSpelled`, `InOrder` — a token over its bytes, and tokens one behind another.
* `JsonError.PointsAt` — an error at a byte of a token.
* `TokenStream.before` — the tokens that end before a place.

## Main results

* `StringContent.place_of_decode` — an error in a string is between its quotes.
* `inOrder_lex` — **tokens stand in order, and the text ends or fails behind them.**
* `Progress.pointsAt_of_advance` — **a token that is not taken is pointed at.**
-/

namespace Columnar

/-! ### Errors in strings -/

theorem eq_error_of_map {ε α β : Type} {f : α → β} {x : Except ε α} {e : ε}
    (h : x.map f = .error e) : x = .error e := by
  cases x with
  | ok => cases h
  | error =>
    cases h
    rfl

namespace StringContent

theorem place_of_unescape {offset : Nat} {cs : List Char} {e : ScanError}
    (h : unescape offset cs = .error e) :
    offset ≤ e.span.offset ∧ e.span.offset < offset + Utf8.width cs := by
  fun_induction unescape offset cs with
  | case1 => cases h
  | case2 offset rest x width hescape ih =>
    obtain ⟨hle, hlt⟩ := ih (eq_error_of_map h)
    -- behind the end there would be nothing to be wrong
    have hlen : width ≤ rest.length := by
      by_contra hgt
      rw [List.drop_eq_nil_of_le (by omega), Utf8.width] at hlt
      omega
    have hwidth := Utf8.add_width_drop_le hlen
    have hback : ('\\').utf8Size = 1 := rfl
    rw [Utf8.width]
    omega
  | case3 offset rest cause hescape =>
    cases h
    have hback : ('\\').utf8Size = 1 := rfl
    rw [Utf8.width]
    exact ⟨Nat.le_refl _, by simp only; omega⟩
  | case4 offset c rest hc ih =>
    obtain ⟨hle, hlt⟩ := ih (eq_error_of_map h)
    rw [Utf8.width]
    omega

/-- **An error in a string is between its quotes.** -/
theorem place_of_decode {offset : Nat} {content : List UInt8} {hasEscapes : Bool} {e : ScanError}
    (h : decode offset content hasEscapes = .error e) :
    offset ≤ e.span.offset ∧ e.span.offset < offset + content.length := by
  unfold decode at h
  split at h
  · next hcs =>
    have hlt := Utf8.validLength_lt hcs
    cases h
    simp only
    omega
  · next cs hcs =>
    have hle := Utf8.width_le hcs
    split at h
    · have hplace := place_of_unescape (eq_error_of_map h)
      omega
    · cases h

end StringContent

/-! ### Errors of the scanner -/

section

variable {atEof : Bool} {skipped s place length : Nat} {cause : ScanCause} {bytes : List UInt8}

theorem place_of_scanContentByByte {b : UInt8} (h : scanContentByByte bytes = .control b place) :
    place < bytes.length := by
  have hbehind : ∀ {c : Content} {front : List UInt8} {escape : Bool} {b : UInt8} {place : Nat},
      c.behind front escape = .control b place →
        ∃ k, c = .control b k ∧ place = front.length + k := by
    intro c front escape b place hc
    cases c <;> cases hc
    exact ⟨_, rfl, rfl⟩
  fun_induction scanContentByByte bytes generalizing place with
  | case1 | case2 | case3 => cases h
  | case4 e rest _ ih =>
    obtain ⟨k, hk, rfl⟩ := hbehind h
    have := ih hk
    simp only [List.length_cons, List.length_nil]
    omega
  | case5 =>
    cases h
    exact Nat.succ_pos _
  | case6 b' rest _ _ _ ih =>
    obtain ⟨k, hk, rfl⟩ := hbehind h
    have := ih hk
    simp only [List.length_cons, List.length_nil]
    omega

theorem place_of_touchingEnd {context : ScanContext} {left : Nat}
    (h : touchingEnd atEof context skipped left = .error s cause place length) :
    place = skipped := by
  cases atEof <;> cases h
  rfl

theorem place_of_scanString (h : scanString atEof skipped bytes = .error s cause place length) :
    place ≤ skipped + bytes.length := by
  unfold scanString at h
  rw [scanContent_eq] at h
  cases hc : scanContentByByte bytes with
  | closed => rw [hc] at h; cases h
  | unclosed =>
    rw [hc] at h
    have := place_of_touchingEnd h
    omega
  | control b k =>
    rw [hc] at h
    cases h
    have := place_of_scanContentByByte hc
    omega

theorem place_of_scanNumber (h : scanNumber atEof skipped bytes = .error s cause place length) :
    place ≤ skipped + bytes.length := by
  simp only [scanNumber] at h
  split at h
  · cases h
  · cases hflaw : (splitNumber bytes).flaw? with
    | none => rw [hflaw] at h; cases h
    | some k =>
      have hle := NumberParts.flaw?_le hflaw
      have hlen := congrArg List.length (literal_append_rest bytes)
      rw [List.length_append] at hlen
      rw [hflaw] at h
      simp only at h
      split at h <;> cases h <;> omega

theorem place_of_scanWord {t : Token} {total seen : Nat} {ws : List UInt8}
    (h : scanWord atEof t skipped total seen ws bytes = .error s cause place length) :
    place ≤ skipped + seen + bytes.length := by
  induction ws generalizing seen bytes with
  | nil => cases h
  | cons w ws ih =>
    cases bytes with
    | nil =>
      have := place_of_touchingEnd h
      omega
    | cons b bytes =>
      rw [scanWord] at h
      rw [List.length_cons]
      split at h
      · have := ih h
        omega
      · cases h
        omega

/-- An error does not point behind the end of the bytes. -/
theorem place_of_scanToken (h : scanToken atEof bytes = .error s cause place length) :
    place ≤ bytes.length := by
  obtain ⟨blanks, rest, rfl, -, hscan⟩ := exists_blanks bytes
  rw [hscan] at h
  rw [List.length_append]
  cases rest with
  | nil => cases h
  | cons b rest =>
    rw [List.length_cons]
    cases tokenStart b with
    | mark hm =>
      rw [scanBody_mark hm] at h
      cases h
    | quote hq =>
      subst hq
      have := place_of_scanString h
      omega
    | number hn =>
      rw [scanBody_number hn] at h
      have := place_of_scanNumber h
      rw [List.length_cons] at this
      omega
    | word hw =>
      rw [scanBody_word hw] at h
      have := place_of_scanWord h
      omega
    | none hnone =>
      rw [hnone] at h
      cases h
      omega

end

/-! ### Tokens in order -/

/-- The place behind the last byte. -/
def Span.stop (s : Span) : Nat := s.offset + s.length

/-- A token covers the bytes that spell it. -/
def Located.IsSpelled (t : Located) : Prop :=
  ∃ text, Spells t.token text ∧ t.span.length = text.length

/-- Tokens one behind another, from a place on and up to another one. -/
def InOrder : Nat → List Located → Nat → Prop
  | start, [], stop => start ≤ stop
  | start, t :: ts, stop => start ≤ t.span.offset ∧ t.IsSpelled ∧ InOrder t.span.stop ts stop

/-- Where bytes end, or where the fault is. -/
def Stop.place : Stop → Nat
  | finished offset => offset
  | incomplete offset _ => offset
  | error _ e => e.span.offset

theorem Located.IsSpelled.length_pos {t : Located} (h : t.IsSpelled) : 0 < t.span.length := by
  obtain ⟨text, hspells, hlen⟩ := h
  obtain ⟨b, more, rfl, -⟩ := hspells.exists_cons
  rw [hlen]
  exact Nat.succ_pos _

namespace InOrder

variable {start stop : Nat} {ts us : List Located}

/-- Each token takes at least a byte. -/
theorem length_le (h : InOrder start ts stop) : start + ts.length ≤ stop := by
  induction ts generalizing start with
  | nil => exact h
  | cons t ts ih =>
    obtain ⟨hle, ht, hrest⟩ := h
    have := ih hrest
    have hpos := ht.length_pos
    rw [List.length_cons]
    unfold Span.stop at this
    omega

theorem isSpelled (h : InOrder start ts stop) : ∀ t ∈ ts, t.IsSpelled := by
  induction ts generalizing start with
  | nil => nofun
  | cons t ts ih =>
    obtain ⟨-, ht, hrest⟩ := h
    exact List.forall_mem_cons.mpr ⟨ht, ih hrest⟩

/-- Tokens that stand in order stand so in two parts. -/
theorem exists_append (h : InOrder start (ts ++ us) stop) :
    ∃ middle, InOrder start ts middle ∧ InOrder middle us stop := by
  induction ts generalizing start with
  | nil => exact ⟨start, Nat.le_refl _, h⟩
  | cons t ts ih =>
    obtain ⟨hle, ht, hrest⟩ := h
    obtain ⟨middle, hfront, hback⟩ := ih hrest
    exact ⟨middle, ⟨hle, ht, hfront⟩, hback⟩

/-- No token reaches behind the place where they end. -/
theorem stop_le (h : InOrder start ts stop) : ∀ t ∈ ts, t.span.stop ≤ stop := by
  induction ts generalizing start with
  | nil => nofun
  | cons t ts ih =>
    obtain ⟨-, -, hrest⟩ := h
    exact List.forall_mem_cons.mpr ⟨Nat.le_trans (Nat.le_add_right _ _) hrest.length_le, ih hrest⟩

end InOrder

/-- **Tokens stand in order, and the text ends or fails behind them.** -/
theorem inOrder_lex (offset : Nat) (bytes : List UInt8) :
    InOrder offset (lex true offset bytes).tokens (lex true offset bytes).stop.place ∧
      (lex true offset bytes).stop.place ≤ offset + bytes.length := by
  fun_induction lex true offset bytes with
  | case1 offset bytes t s w h more ih =>
    obtain ⟨blanks, text, rest, rfl, -, hspells, rfl, rfl⟩ := exists_of_scanToken h
    obtain ⟨horder, hle⟩ := ih
    refine ⟨⟨Nat.le_add_right _ _, ⟨text, hspells, rfl⟩, horder⟩, ?_⟩
    refine Nat.le_trans hle ?_
    simp only [List.length_drop, List.length_append]
    omega
  | case2 offset bytes s h =>
    obtain ⟨-, rfl⟩ := exists_of_finished h
    exact ⟨Nat.le_add_right _ _, Nat.le_refl _⟩
  | case3 offset bytes s h => exact absurd h (scanToken_ne_incomplete bytes s)
  | case4 offset bytes s cause place length h =>
    exact ⟨Nat.le_add_right _ _, Nat.add_le_add_left (place_of_scanToken h) _⟩

/-- The tokens of a text that end before a place. -/
def TokenStream.before (stream : TokenStream) (place : Nat) : List Located :=
  stream.tokens.takeWhile fun t => t.span.stop ≤ place

/-- The next token after them reaches behind the place. -/
theorem TokenStream.before_eq {stream : TokenStream} {place : Nat} {ts us : List Located}
    (h : stream.tokens = ts ++ us) (hts : ∀ t ∈ ts, t.span.stop ≤ place)
    (hus : ∀ u ∈ us.head?, place < u.span.stop) : stream.before place = ts := by
  rw [before, h, List.takeWhile_append_of_pos fun t ht => decide_eq_true (hts t ht)]
  cases us with
  | nil => exact List.append_nil ts
  | cons u us =>
    have hu : ¬ u.span.stop ≤ place := Nat.not_le.mpr (hus u rfl)
    rw [List.takeWhile_cons, decide_eq_false hu]
    exact List.append_nil ts

/-! ### Tokens that are not taken -/

/-- An error is at a byte of a token. -/
def JsonError.PointsAt (e : JsonError) (t : Located) : Prop :=
  t.span.offset ≤ e.span.offset ∧ e.span.offset < t.span.stop

section

variable {o : ReadOptions} {s : Progress} {t : Located} {e : JsonError}

theorem pointsAt_of_eq (ht : t.IsSpelled) (h : e.span.offset = t.span.offset) : e.PointsAt t := by
  have hpos := ht.length_pos
  unfold JsonError.PointsAt Span.stop
  omega

theorem pointsAt_of_decode {content : List UInt8} {hasEscapes : Bool} {e : ScanError}
    (ht : t.IsSpelled) (htoken : t.token = .string content hasEscapes)
    (h : StringContent.decode (t.span.offset + 1) content hasEscapes = .error e) :
    (JsonError.ofScan e).PointsAt t := by
  obtain ⟨text, hspells, hlen⟩ := ht
  have hplace := StringContent.place_of_decode h
  have htext : text.length = content.length + 2 := by
    rw [htoken] at hspells
    cases hspells with
    | mark hm => exact absurd (mem_markBytes hm) (by simp [markBytes])
    | word hw => simp [wordBytes] at hw
    | string => simp
  unfold JsonError.PointsAt JsonError.ofScan Span.stop
  simp only
  omega

theorem pointsAt_of_scalarPush {expected : Expected} (ht : t.IsSpelled)
    (h : o.scalarPush expected t = .error e) : e.PointsAt t := by
  unfold ReadOptions.scalarPush at h
  split at h
  · cases h
  · cases h
  · next content hasEscapes htoken =>
    split at h
    · cases h
    · next e' hdecode =>
      cases h
      exact pointsAt_of_decode ht htoken hdecode
  · split at h
    · split at h
      · cases h
      · cases h
        exact pointsAt_of_eq ht rfl
    · next e' hparse =>
      unfold Number.parse at hparse
      split at hparse
      · cases hparse
      · cases hparse
        cases h
        exact pointsAt_of_eq ht rfl
  · cases h
    exact pointsAt_of_eq ht rfl

namespace Progress

theorem pointsAt_of_advanceValue (ht : t.IsSpelled) (h : s.advanceValue o t = .error e) :
    e.PointsAt t := by
  unfold advanceValue at h
  split at h
  · cases h
    exact pointsAt_of_eq ht rfl
  · split at h
    · cases h
    · cases h
    · exact pointsAt_of_scalarPush ht (eq_error_of_map h)

theorem pointsAt_of_advanceKey {outer : List Frame} (ht : t.IsSpelled)
    (h : s.advanceKey o outer t = .error e) : e.PointsAt t := by
  unfold advanceKey at h
  split at h
  · next content hasEscapes htoken =>
    split at h
    · cases h
    · next e' hdecode =>
      cases h
      exact pointsAt_of_decode ht htoken hdecode
  · cases h
    exact pointsAt_of_eq ht rfl

/-- **A token that is not taken is pointed at.** -/
theorem pointsAt_of_advance (ht : t.IsSpelled) (h : s.advance o t = .error e) : e.PointsAt t := by
  unfold advance at h
  split at h
  -- a token is taken, or stands where a key or a value comes next, or is out of place
  all_goals first
    | cases h
    | exact pointsAt_of_advanceKey ht h
    | exact pointsAt_of_advanceValue ht h
  all_goals exact pointsAt_of_eq ht rfl

end Progress

end

end Columnar
