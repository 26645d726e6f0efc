import Mathlib.Data.List.Induction
import Columnar.Json.BufferedWriter
import Columnar.Proofs.Json.InPlace

/-!
# What reaches a sink

A writer before a sink makes the same text as one that keeps all of it.  At any time the text is in
three places: what the sink has taken, what the buffer holds, and what the writer retains because a
call could not hand it on.  As long as the text goes through the buffer, the three parts are the
text one after another.

They are not after text went past the buffer to a sink that took a part of it.  The writer then
retains all that it wanted to hand on, the part that was taken too.  This does no harm to the sink,
which is full: the buffer is empty, and whatever the writer retains is too long for it, so each call
tries the sink again, which takes nothing.  But an empty buffer is flushed without an error, so
that a flush may succeed while text is retained.  Some is retained if and only if the last call that
was not rejected has failed.

## Main definitions

* `Sink.Accepts` — a sink takes bytes in pieces of any size.
* `BufferedWriter.Request`, `BufferedWriter.run`, `BufferedWriter.log` — calls and flushes in any
  order, and what became of each.
* `BufferedWriter.finish` — the sink, after a last flush.
* `BufferedWriter.IsBehind`, `BufferedWriter.IsCut`, `BufferedWriter.Tracks` — where the text is.
* `BufferedWriter.SendCases`, `BufferedWriter.CallCases` — what becomes of retained text, and of a
  call.

## Main results

* `Sink.accepts_iff` — the pieces in which a sink takes bytes make no difference.
* `BufferedWriter.Tracks.flush`, `BufferedWriter.Tracks.handOn` — nothing is reordered, dropped or
  repeated.
* `BufferedWriter.sink_run` — **the sink gets the text of a writer that keeps all of it.**
* `BufferedWriter.flush_run` — **after a flush that succeeds, only what the last call retained is
  missing.**
-/

namespace Columnar

/-! ### Sinks -/

namespace Sink

variable {s s' : Sink} {bytes left : List UInt8}

/-- A sink without room. -/
def IsFull (s : Sink) : Prop := ∀ n, s.room n = 0

/-- A sink is asked to take bytes until none are left or it has no room for more; each time it
takes some of them from the front, as many as it likes. -/
inductive Accepts : Sink → List UInt8 → Sink → List UInt8 → Prop
  /-- There is nothing left. -/
  | done (s : Sink) : Accepts s [] s []
  /-- There is no room. -/
  | full {s : Sink} {bytes : List UInt8} (hroom : s.room bytes.length = 0) (hne : bytes ≠ []) :
      Accepts s bytes s bytes
  /-- Some bytes are taken. -/
  | piece {s s' : Sink} {bytes left : List UInt8} {n : Nat} (hpos : 0 < n)
      (hroom : n ≤ s.room bytes.length)
      (h : Accepts ⟨s.limit?, s.taken ++ bytes.take n⟩ (bytes.drop n) s' left) :
      Accepts s bytes s' left

theorem room_le (s : Sink) (n : Nat) : s.room n ≤ n := by
  unfold room
  split <;> omega

/-- What is taken and what is left over are the bytes, and a sink that leaves bytes over is
full. -/
theorem write_spec (s : Sink) (bytes : List UInt8) : ∃ front,
    (s.write bytes).1.taken = s.taken ++ front ∧ front ++ (s.write bytes).2 = bytes ∧
      ((s.write bytes).2 ≠ [] → (s.write bytes).1.IsFull) := by
  refine ⟨bytes.take (s.room bytes.length), rfl, List.take_append_drop .., fun hleft n => ?_⟩
  have hless : s.room bytes.length < bytes.length := by
    simpa [write, List.drop_eq_nil_iff] using hleft
  unfold room at hless
  simp only [write, room]
  split at hless
  · next limit hlimit =>
    simp only [List.length_append, List.length_take]
    omega
  · omega

theorem IsFull.write (h : s.IsFull) (bytes : List UInt8) : s.write bytes = (s, bytes) := by
  simp [Sink.write, h bytes.length]

/-- The room that a piece leaves. -/
theorem room_piece {n : Nat} (h : n ≤ s.room bytes.length) :
    room ⟨s.limit?, s.taken ++ bytes.take n⟩ (bytes.drop n).length = s.room bytes.length - n := by
  have hle : n ≤ bytes.length := Nat.le_trans h (s.room_le _)
  simp only [room] at h ⊢
  split at h
  · simp only [List.length_append, List.length_take, List.length_drop]
    omega
  · exact List.length_drop ..

/-- After a piece, the sink takes what it would have taken with the piece. -/
theorem write_piece {n : Nat} (h : n ≤ s.room bytes.length) :
    write ⟨s.limit?, s.taken ++ bytes.take n⟩ (bytes.drop n) = s.write bytes := by
  obtain ⟨k, hk⟩ := Nat.exists_eq_add_of_le h
  simp only [write, room_piece h, hk, List.append_assoc, List.drop_drop, Nat.add_sub_cancel_left,
    List.take_add]

/-- Without room, nothing is taken. -/
theorem accepts_of_room_eq_zero (h : s.room bytes.length = 0) : s.Accepts bytes s bytes := by
  cases bytes with
  | nil => exact .done s
  | cons b bytes => exact .full h (List.cons_ne_nil b bytes)

/-- **The pieces in which a sink takes bytes make no difference.** -/
theorem accepts_iff : s.Accepts bytes s' left ↔ s.write bytes = (s', left) := by
  constructor
  · intro h
    induction h with
    | done s => simp [write]
    | full hroom => simp [write, hroom]
    | piece _ hroom _ ih => rw [← write_piece hroom, ih]
  · intro h
    obtain ⟨rfl, rfl⟩ := Prod.mk.inj h.symm
    rcases Nat.eq_zero_or_pos (s.room bytes.length) with hzero | hpos
    · simpa [hzero] using accepts_of_room_eq_zero hzero
    · -- all there is room for is taken at once
      refine .piece hpos (Nat.le_refl _) (accepts_of_room_eq_zero ?_)
      rw [room_piece (Nat.le_refl _), Nat.sub_self]

end Sink

/-! ### Calls and flushes -/

namespace BufferedWriter

/-- What a writer is asked to do. -/
inductive Request
  /-- A call. -/
  | call (c : Call)
  /-- The bytes of the buffer are to be handed on. -/
  | flush
  deriving DecidableEq

/-- The call of a request. -/
def Request.call? : Request → Option Call
  | call c => some c
  | flush => none

/-- The writer after a request. -/
def answer (w : BufferedWriter) : Request → Written
  | .call c => w.call c
  | .flush => w.flush

/-- The writer after requests one after another, those that fail among them. -/
def run (w : BufferedWriter) (rs : List Request) : BufferedWriter :=
  rs.foldl (fun w r => (w.answer r).1) w

/-- Each request with what went wrong. -/
def log (w : BufferedWriter) : List Request → List (Request × Option WriteError)
  | [] => []
  | r :: rs => (r, (w.answer r).2) :: (w.answer r).1.log rs

/-- Whether all text was handed on with a call, if the call was not rejected. -/
def handedOn? : Request × Option WriteError → Option Bool
  | (.call _, none) => some true
  | (.call _, some (.io _)) => some false
  | (.call _, some (.misuse _)) | (.flush, _) => none

/-- The sink, once the buffer was flushed for the last time. -/
def finish (w : BufferedWriter) : Except WriteError Sink :=
  match w.flush with
  | (w, none) => .ok w.sink
  | (_, some e) => .error e

theorem handedOn?_eq_some_false_iff {entry : Request × Option WriteError} :
    handedOn? entry = some false ↔ ∃ c words, entry = (.call c, some (.io words)) := by
  unfold handedOn?
  split <;> simp

section

variable (w : BufferedWriter) (r : Request) (rs : List Request)

theorem run_append_singleton : w.run (rs ++ [r]) = ((w.run rs).answer r).1 := by simp [run]

theorem log_append_singleton : w.log (rs ++ [r]) = w.log rs ++ [(r, ((w.run rs).answer r).2)] := by
  induction rs generalizing w with
  | nil => rfl
  | cons s rs ih => exact congrArg _ (ih _)

theorem finish_eq_ok_iff {s : Sink} :
    w.finish = .ok s ↔ w.flush.2 = none ∧ w.flush.1.sink = s := by
  unfold finish
  split <;> simp_all

end

/-! ### Where the text is -/

/-- The text is in the sink, the buffer and the writer, one part after another. -/
def IsBehind (w : BufferedWriter) (text : List UInt8) : Prop :=
  w.sink.taken ++ w.buffer ++ w.retained = text

/-- Text went past the buffer, and the sink took only a part of it. -/
structure IsCut (w : BufferedWriter) (text : List UInt8) : Prop where
  isFull : w.sink.IsFull
  buffer : w.buffer = []
  long : w.capacity ≤ w.retained.length
  parts : ∃ front back, w.retained = front ++ back ∧ w.sink.taken ++ back = text ∧ back ≠ []

/-- A writer keeps track of a text. -/
structure Tracks (w : BufferedWriter) (text : List UInt8) : Prop where
  capacity_pos : 0 < w.capacity
  length_le : w.buffer.length ≤ w.capacity
  parts : w.IsBehind text ∨ w.IsCut text

variable {w : BufferedWriter} {text added : List UInt8}

@[simp] theorem shortfall_eq_none_iff {left : List UInt8} : shortfall left = none ↔ left = [] := by
  unfold shortfall
  split <;> simp_all

theorem shortfall_of_ne_nil {left : List UInt8} (h : left ≠ []) :
    shortfall left = some (.io Sink.full) := by
  unfold shortfall
  split <;> simp_all

/-- What the sink has taken is a part of the text from its start. -/
theorem Tracks.taken_prefix (h : w.Tracks text) : w.sink.taken <+: text := by
  rcases h.parts with hbehind | hcut
  · exact ⟨w.buffer ++ w.retained, by rw [← hbehind, List.append_assoc]⟩
  · obtain ⟨front, back, -, htext, -⟩ := hcut.parts
    exact ⟨back, htext⟩

/-- The text of a further call is retained at first. -/
theorem Tracks.retain (h : w.Tracks text) (encoder : Encoder) (added : List UInt8) :
    Tracks { w with encoder, retained := w.retained ++ added } (text ++ added) := by
  refine ⟨h.capacity_pos, h.length_le, h.parts.imp (fun hbehind => ?_) fun hcut => ?_⟩
  · simp only [IsBehind, ← List.append_assoc] at hbehind ⊢
    rw [hbehind]
  · obtain ⟨front, back, hretained, htext, hne⟩ := hcut.parts
    refine ⟨hcut.isFull, hcut.buffer, ?_, front, back ++ added, ?_, ?_, by simp [hne]⟩
    · have hlong := hcut.long
      simp only [List.length_append]
      omega
    · rw [← List.append_assoc, ← hretained]
    · rw [← List.append_assoc, htext]

/-- A flush moves bytes of the buffer to the sink. -/
theorem flush_eq (w : BufferedWriter) : ∃ buffer sink,
    w.flush = ({ w with buffer, sink }, shortfall buffer) ∧
      sink.taken ++ buffer = w.sink.taken ++ w.buffer ∧ buffer.length ≤ w.buffer.length ∧
      (w.sink.IsFull → sink = w.sink) := by
  obtain ⟨front, htaken, hparts, -⟩ := w.sink.write_spec w.buffer
  refine ⟨(w.sink.write w.buffer).2, (w.sink.write w.buffer).1, rfl, ?_, ?_, fun hfull => ?_⟩
  · rw [htaken, List.append_assoc, hparts]
  · have hlength := congrArg List.length hparts
    simp only [List.length_append] at hlength
    omega
  · rw [hfull.write]

/-- A flush neither reorders nor drops nor repeats anything. -/
theorem Tracks.flush (h : w.Tracks text) : w.flush.1.Tracks text := by
  obtain ⟨buffer, sink, hflush, htaken, hlength, hfull⟩ := w.flush_eq
  rw [hflush]
  refine ⟨h.capacity_pos, Nat.le_trans hlength h.length_le,
    h.parts.imp (fun hbehind => ?_) fun hcut => ?_⟩
  · rw [← hbehind]
    simp only [IsBehind, htaken]
  · obtain rfl := hfull hcut.isFull
    exact ⟨hcut.isFull, by simpa [hcut.buffer] using hlength, hcut.long, hcut.parts⟩

/-- What becomes of retained text: all of it leaves the writer, or the sink has failed and all of it
is retained. -/
inductive SendCases (w : BufferedWriter) (text : List UInt8) : Written → Prop
  /-- The text is in the sink and the buffer. -/
  | sent {buffer : List UInt8} {sink : Sink} (htext : sink.taken ++ buffer = text)
      (hlength : buffer.length ≤ w.capacity) : SendCases w text ({ w with buffer, sink }, none)
  /-- The sink is full. -/
  | failed {buffer : List UInt8} {sink : Sink} (h : Tracks { w with buffer, sink } text)
      (hne : w.retained ≠ []) :
      SendCases w text ({ w with buffer, sink }, some (.io Sink.full))

/-- It does not matter if bytes have moved on before. -/
theorem SendCases.of_moved {buffer : List UInt8} {sink : Sink} {r : Written}
    (h : SendCases { w with buffer, sink } text r) : SendCases w text r := by
  cases h with
  | sent htext hlength => exact .sent htext hlength
  | failed h hne => exact .failed h hne

/-- Retained text goes to the buffer. -/
theorem Tracks.buffered (h : w.Tracks text) (hshort : w.retained.length < w.capacity)
    (hroom : w.buffer = [] ∨ w.buffer.length + w.retained.length ≤ w.capacity) :
    SendCases w text ({ w with buffer := w.buffer ++ w.retained }, none) := by
  refine .sent ?_ ?_
  · rcases h.parts with hbehind | hcut
    · rw [← hbehind, List.append_assoc]
    · exact absurd hcut.long (Nat.not_le_of_lt hshort)
  · rcases hroom with hnil | hroom
    · simpa [hnil] using Nat.le_of_lt hshort
    · simpa using hroom

/-- Retained text goes past the empty buffer to the sink. -/
theorem Tracks.written (h : w.Tracks text) (hnil : w.buffer = [])
    (hlong : w.capacity ≤ w.retained.length) :
    SendCases w text
      ({ w with sink := (w.sink.write w.retained).1 }, shortfall (w.sink.write w.retained).2) := by
  obtain ⟨front, htaken, hparts, hfull⟩ := w.sink.write_spec w.retained
  rcases h.parts with hbehind | hcut
  · rw [IsBehind, hnil, List.append_nil, ← hparts, ← List.append_assoc, ← htaken] at hbehind
    by_cases hleft : (w.sink.write w.retained).2 = []
    · rw [hleft, List.append_nil] at hbehind
      rw [shortfall_eq_none_iff.mpr hleft]
      exact .sent (by rw [hnil, List.append_nil, hbehind]) h.length_le
    · -- the sink took the front, and the writer retains all of it
      rw [shortfall_of_ne_nil hleft]
      refine .failed ⟨h.capacity_pos, h.length_le, .inr ?_⟩ ?_
      · exact ⟨hfull hleft, hnil, hlong, front, _, hparts.symm, hbehind, hleft⟩
      · rw [← hparts]
        simp [hleft]
  · -- a full sink takes nothing, and all is as it was
    obtain ⟨_, back, hretained, -, hne⟩ := hcut.parts
    have hne' : w.retained ≠ [] := by simp [hretained, hne]
    rw [hcut.isFull.write, shortfall_of_ne_nil hne']
    exact .failed h hne'

/-- Retained text goes to the buffer, or past it when it is empty. -/
theorem Tracks.pass (h : w.Tracks text)
    (hroom : w.buffer = [] ∨ w.buffer.length + w.retained.length ≤ w.capacity) :
    SendCases w text (w.pass w.retained) := by
  unfold BufferedWriter.pass
  split
  · next hshort => exact h.buffered hshort hroom
  · next hlong =>
    have hlong := Nat.le_of_not_lt hlong
    refine h.written ?_ hlong
    rcases hroom with hnil | hroom
    · exact hnil
    · exact List.eq_nil_of_length_eq_zero (by omega)

/-- The buffer is emptied for retained text that does not fit. -/
theorem Tracks.send (h : w.Tracks text) : SendCases w text (w.send w.retained) := by
  unfold BufferedWriter.send
  split
  · next hfits => exact h.pass (.inr (of_decide_eq_true hfits))
  · next hfits =>
    obtain ⟨buffer, sink, hflush, -⟩ := w.flush_eq
    have htracks := h.flush
    rw [hflush] at htracks ⊢
    by_cases hnil : buffer = []
    · subst hnil
      exact (htracks.pass (.inl rfl)).of_moved
    · rw [shortfall_of_ne_nil hnil]
      refine .failed htracks fun hretained => ?_
      have hlength := h.length_le
      simp only [fits, hretained, List.length_nil, decide_eq_true_eq] at hfits
      omega

/-- Either all retained text is handed on, or all of it is retained. -/
theorem Tracks.handOn (h : w.Tracks text) :
    ∃ buffer sink,
      (w.handOn = ({ w with buffer, sink, retained := [] }, none) ∧
        Tracks { w with buffer, sink, retained := [] } text) ∨
      (w.handOn = ({ w with buffer, sink }, some (.io Sink.full)) ∧
        Tracks { w with buffer, sink } text ∧ w.retained ≠ []) := by
  have hsend := h.send
  unfold BufferedWriter.handOn
  generalize w.send w.retained = r at hsend
  rcases hsend with @⟨buffer, sink, htext, hlength⟩ | @⟨buffer, sink, htracks, hne⟩
  · refine ⟨buffer, sink, .inl ⟨rfl, h.capacity_pos, hlength, .inl ?_⟩⟩
    rw [IsBehind, List.append_nil, htext]
  · exact ⟨buffer, sink, .inr ⟨rfl, htracks, hne⟩⟩

/-! ### Beside a writer that keeps the whole text -/

/-- Two writers have the same containers open, and the text of the one is tracked by the other. -/
structure Agrees (w : BufferedWriter) (t : TextWriter) : Prop where
  options : w.options = t.options
  encoder : w.encoder = t.encoder
  tracks : w.Tracks (Utf8.encodeString t.text)

variable {t : TextWriter}

theorem agrees_new (o : WriteOptions) (size : Nat) (limit? : Option Nat) :
    Agrees (new o size ⟨limit?, []⟩) (.new o) :=
  ⟨rfl, rfl, Nat.le_max_right size 1, Nat.zero_le _, .inl rfl⟩

/-- What a call does to both writers.  Both reject it and stay as they are; or both accept it, and
text is retained if and only if the sink has failed. -/
inductive CallCases (w : BufferedWriter) (t : TextWriter) (c : Call) : Prop
  /-- The call is rejected. -/
  | rejected {m : Misuse} (hw : w.call c = (w, some (.misuse m))) (ht : t.attempt c = (t, some m))
  /-- The call is accepted, and all text was handed on. -/
  | handedOn {w' : BufferedWriter} {t' : TextWriter} (hw : w.call c = (w', none))
      (ht : t.attempt c = (t', none)) (h : w'.Agrees t') (hretained : w'.retained = [])
  /-- The call is accepted, and the sink has failed. -/
  | heldBack {w' : BufferedWriter} {t' : TextWriter} (hw : w.call c = (w', some (.io Sink.full)))
      (ht : t.attempt c = (t', none)) (h : w'.Agrees t') (hretained : w'.retained ≠ [])

theorem Agrees.callCases (h : w.Agrees t) (c : Call) : CallCases w t c := by
  have hattempt := t.attempt_eq c
  rw [TextWriter.call, ← h.encoder, ← h.options] at hattempt
  cases hcall : w.encoder.call w.options c with
  | error m =>
    rw [hcall] at hattempt
    exact .rejected (by rw [call, hcall]) hattempt
  | ok r =>
    obtain ⟨encoder, added⟩ := r
    rw [hcall] at hattempt
    have htracks := h.tracks.retain encoder (Utf8.encode added)
    have htext : Utf8.encodeString t.text ++ Utf8.encode added
        = Utf8.encodeString (t.text ++ String.ofList added) := by simp [Utf8.encodeString]
    rw [htext] at htracks
    have hwcall : w.call c
        = handOn { w with encoder, retained := w.retained ++ Utf8.encode added } := by
      rw [call, hcall]
    obtain ⟨buffer, sink, ⟨hw, htracks⟩ | ⟨hw, htracks, hne⟩⟩ := htracks.handOn
    · rw [hw] at hwcall
      exact .handedOn hwcall hattempt ⟨rfl, rfl, htracks⟩ rfl
    · rw [hw] at hwcall
      exact .heldBack hwcall hattempt ⟨rfl, rfl, htracks⟩ hne

theorem Agrees.flush (h : w.Agrees t) : w.flush.1.Agrees t :=
  ⟨h.options, h.encoder, h.tracks.flush⟩

/-- What a request does to the other writer. -/
theorem Agrees.answer (h : w.Agrees t) (r : Request) :
    (w.answer r).1.Agrees (t.run (r.call?.toList)) := by
  cases r with
  | flush => exact h.flush
  | call c =>
    simp only [Request.call?, Option.toList_some, TextWriter.run_cons, TextWriter.run_nil]
    rw [BufferedWriter.answer]
    rcases h.callCases c with ⟨hw, ht⟩ | ⟨hw, ht, h', -⟩ | ⟨hw, ht, h', -⟩
    · rw [hw, ht]
      exact h
    all_goals
      rw [hw, ht]
      exact h'

/-- After any requests, the writers agree. -/
theorem Agrees.run (h : w.Agrees t) (rs : List Request) :
    (w.run rs).Agrees (t.run (rs.filterMap Request.call?)) := by
  induction rs generalizing w t with
  | nil => exact h
  | cons r rs ih =>
    have hstep := ih (h.answer r)
    cases r <;> exact hstep

/-- A writer that retains nothing at first does so later if and only if the last call that was
not rejected has handed all text on. -/
theorem Agrees.retained_run_eq_nil_iff (h : w.Agrees t) (hnil : w.retained = [])
    (rs : List Request) :
    (w.run rs).retained = [] ↔ ((w.log rs).filterMap handedOn?).getLast? ≠ some false := by
  -- from the end: the last request is a flush, a rejected call, or the call that decides
  induction rs using List.reverseRecOn with
  | nil => simpa [log, BufferedWriter.run] using hnil
  | append_singleton rs r ih =>
    rw [run_append_singleton, log_append_singleton, List.filterMap_append]
    cases r with
    | flush => simpa [handedOn?, BufferedWriter.answer, BufferedWriter.flush] using ih
    | call c =>
      rw [BufferedWriter.answer]
      rcases (h.run rs).callCases c with ⟨hw, -⟩ | ⟨hw, -, -, hretained⟩ | ⟨hw, -, -, hretained⟩
      · simpa [hw, handedOn?] using ih
      · simp [hw, handedOn?, hretained]
      · simp [hw, handedOn?, hretained]

/-- What a flush that succeeds leaves behind is retained. -/
theorem Tracks.exists_missing (h : w.Tracks text) (hflush : w.flush.2 = none) :
    ∃ missing, w.flush.1.sink.taken ++ missing = text ∧ missing <:+ w.retained ∧
      (missing = [] ↔ w.retained = []) := by
  obtain ⟨buffer, sink, heq, -⟩ := w.flush_eq
  have htracks := h.flush
  rw [heq] at hflush htracks ⊢
  obtain rfl := shortfall_eq_none_iff.mp hflush
  rcases htracks.parts with hbehind | hcut
  · rw [IsBehind, List.append_nil] at hbehind
    exact ⟨w.retained, hbehind, List.suffix_refl _, Iff.rfl⟩
  · obtain ⟨front, back, hretained, htext, hne⟩ := hcut.parts
    have hretained : w.retained = front ++ back := hretained
    refine ⟨back, htext, hretained ▸ List.suffix_append front back, iff_of_false hne ?_⟩
    simp [hretained, hne]

/-- **The sink gets the text of a writer that keeps all of it.**  After any requests, what it has
taken is a part of that text from its start, and the same calls are rejected for the same reasons.
If no call and no flush has failed, and neither does the last flush, then it is the whole text.
None of this depends on the pieces in which the sink takes bytes. -/
theorem sink_run (o : WriteOptions) (size : Nat) (limit? : Option Nat) (rs : List Request) :
    let w := new o size ⟨limit?, []⟩
    let t := (TextWriter.new o).run (rs.filterMap Request.call?)
    let text := Utf8.encodeString t.text
    (w.run rs).sink.taken <+: text ∧
      (∀ c m, ((w.run rs).call c).2 = some (.misuse m) ↔ (t.attempt c).2 = some m) ∧
      ((∀ entry ∈ w.log rs, ∀ e ∈ entry.2, e.isIo = false) →
        ∀ s, (w.run rs).finish = .ok s → s.taken = text) ∧
      ∀ bytes s left, (w.run rs).sink.Accepts bytes s left ↔
        (w.run rs).sink.write bytes = (s, left) := by
  intro w t text
  have hagrees : (w.run rs).Agrees t := (agrees_new o size limit?).run rs
  refine ⟨hagrees.tracks.taken_prefix, fun c m => ?_, fun hlog s hs => ?_,
    fun _ _ _ => Sink.accepts_iff⟩
  · rcases hagrees.callCases c with ⟨hw, ht⟩ | ⟨hw, ht, -⟩ | ⟨hw, ht, -⟩ <;> simp [hw, ht]
  · obtain ⟨hflush, rfl⟩ := ((w.run rs).finish_eq_ok_iff).mp hs
    obtain ⟨missing, htext, -, hmissing⟩ := hagrees.tracks.exists_missing hflush
    have hretained : (w.run rs).retained = [] := by
      refine ((agrees_new o size limit?).retained_run_eq_nil_iff rfl rs).mpr fun hlast => ?_
      obtain ⟨entry, hentry, hfalse⟩ := List.mem_filterMap.mp (List.mem_of_getLast? hlast)
      obtain ⟨c, words, rfl⟩ := handedOn?_eq_some_false_iff.mp hfalse
      exact Bool.noConfusion (hlog _ hentry _ rfl)
    rw [hmissing.mpr hretained, List.append_nil] at htext
    exact htext

theorem sink_run_null :
    let w := new {} 0 ⟨some 4, []⟩
    let rs := [.call .null, .call .endList, .flush]
    (w.log rs).map Prod.snd = [none, some (.misuse .endListOutside), none] ∧
      (w.run rs).finish = .ok ⟨some 4, [0x6e, 0x75, 0x6c, 0x6c]⟩ ∧
      Utf8.encodeString ((TextWriter.new {}).run (rs.filterMap Request.call?)).text
        = [0x6e, 0x75, 0x6c, 0x6c] := by
  intro w rs
  have hlog : (w.log rs).map Prod.snd = [none, some (.misuse .endListOutside), none] := by decide
  have hfinish : (w.run rs).finish = .ok ⟨some 4, [0x6e, 0x75, 0x6c, 0x6c]⟩ := by
    rw [finish_eq_ok_iff]
    decide
  have htext := (sink_run {} 0 (some 4) rs).2.2.1 (by decide) _ hfinish
  exact ⟨hlog, hfinish, htext.symm⟩

/-- **After a flush that succeeds, only what the last call retained is missing.**  The sink has
the whole text if and only if the last call that was not rejected has handed on all of its text;
otherwise what is missing stands at the end of what the writer retains. -/
theorem flush_run (o : WriteOptions) (size : Nat) (limit? : Option Nat) (rs : List Request) :
    let w := new o size ⟨limit?, []⟩
    let text := Utf8.encodeString ((TextWriter.new o).run (rs.filterMap Request.call?)).text
    let isHandedOn := ((w.log rs).filterMap handedOn?).getLast? ≠ some false
    ((w.run rs).flush.2 = none → ∃ missing, (w.run rs).flush.1.sink.taken ++ missing = text ∧
      missing <:+ (w.run rs).retained ∧ (missing = [] ↔ isHandedOn)) ∧
      ∀ s, (w.run rs).finish = .ok s → (s.taken = text ↔ isHandedOn) := by
  intro w text isHandedOn
  have htracks : (w.run rs).Tracks text := ((agrees_new o size limit?).run rs).tracks
  have hmissing : (w.run rs).flush.2 = none → ∃ missing,
      (w.run rs).flush.1.sink.taken ++ missing = text ∧ missing <:+ (w.run rs).retained ∧
        (missing = [] ↔ isHandedOn) := by
    intro hflush
    obtain ⟨missing, htext, hsuffix, hnil⟩ := htracks.exists_missing hflush
    exact ⟨missing, htext, hsuffix,
      hnil.trans ((agrees_new o size limit?).retained_run_eq_nil_iff rfl rs)⟩
  refine ⟨hmissing, fun s hs => ?_⟩
  obtain ⟨hflush, rfl⟩ := ((w.run rs).finish_eq_ok_iff).mp hs
  obtain ⟨missing, htext, -, hnil⟩ := hmissing hflush
  rw [← hnil, ← htext]
  simp

theorem flush_run_null :
    let w := new {} 8 ⟨some 4, []⟩
    (w.run [.call .null]).flush.2 = none ∧
      (w.run [.call .null]).finish = .ok ⟨some 4, [0x6e, 0x75, 0x6c, 0x6c]⟩ ∧
      [0x6e, 0x75, 0x6c, 0x6c]
        = Utf8.encodeString
          ((TextWriter.new {}).run ([.call .null].filterMap Request.call?)).text := by
  intro w
  have hflush : (w.run [.call .null]).flush.2 = none := by decide
  have hfinish : (w.run [.call .null]).finish = .ok ⟨some 4, [0x6e, 0x75, 0x6c, 0x6c]⟩ := by
    rw [finish_eq_ok_iff]
    decide
  exact ⟨hflush, hfinish, ((flush_run {} 8 (some 4) [.call .null]).2 _ hfinish).mpr (by decide)⟩

/-- A sink without room, and a value that went past the buffer. -/
theorem not_flush_complete : ¬ ∀ (o : WriteOptions) (size : Nat) (limit? : Option Nat)
    (rs : List Request), let w := new o size ⟨limit?, []⟩
    (w.run rs).flush.2 = none → (w.run rs).flush.1.sink.taken
      = Utf8.encodeString ((TextWriter.new o).run (rs.filterMap Request.call?)).text := by
  intro h
  have hnull := h {} 1 (some 0) [.call .null]
  revert hnull
  decide

end BufferedWriter

end Columnar
