import Columnar.Json.Intake
import Columnar.Proofs.Json.Lex

/-!
# Bytes that arrive in pieces

A source that never fails and hands out at least a byte when it has one gives the buffer all of
its bytes, whatever the sizes of its pieces and of the buffer.  The tokens of the buffer are then
those of the bytes it holds and of all that follow.

## Main definitions

* `Feed.HasRoom`, `Feed.IsSteady` — what a buffer before such a source keeps.

## Main results

* `Feed.HasRoom.exists_refill` — more bytes arrive, and none is lost.
* `Feed.tokens_eq` — **the tokens are those of all bytes together.**
* `Builder.pushSource_eq_pushBytes` — **a text is taken in alike in pieces and as a whole.**
-/

namespace Columnar

namespace Source

/-- The next piece has room to spare for a byte. -/
theorem pieceSize_pos {s : Source} {room : Nat} (hroom : 0 < room)
    (hplan : Delivery.upTo 0 ∉ s.plan) : 0 < s.pieceSize room := by
  unfold pieceSize
  split
  · next n hhead =>
    have hmem : Delivery.upTo n ∈ s.plan :=
      (List.dropWhile_sublist _).subset (List.mem_of_mem_head? hhead)
    have hn : n ≠ 0 := by
      rintro rfl
      exact hplan hmem
    omega
  · exact hroom

theorem pieceSize_le (s : Source) (room : Nat) : s.pieceSize room ≤ room := by
  unfold pieceSize
  split
  · exact Nat.min_le_right _ _
  · exact Nat.le_refl _

/-- A source hands out its next piece, unless it fails behind its last byte. -/
theorem read_of_ne {s : Source} (h : s.data = [] → s.failure? = none) (room : Nat) :
    s.read room = .ok (s.data.take (s.pieceSize room),
      ⟨s.data.drop (s.pieceSize room), s.awake.tail, s.failure?⟩) := by
  unfold read
  split
  · next hdata hf =>
    rw [h hdata] at hf
    cases hf
  · rfl

/-- Behind its last byte a source may fail. -/
theorem read_of_failure? {s : Source} {words : String} (hdata : s.data = [])
    (h : s.failure? = some words) (room : Nat) : s.read room = .error words := by
  rw [read, hdata, h]

end Source

/-- The tokens of a whole input, and what comes behind them. -/
def Lexed.stream (lexed : Lexed) : TokenStream := ⟨lexed.tokens, lexed.stop.ending⟩

namespace Feed

/-- What a buffer keeps before a source that hands out at least a byte when it has one: there is
room for a byte, and the bytes that are held fit. -/
structure HasRoom (f : Feed) : Prop where
  plan : Delivery.upTo 0 ∉ f.source.plan
  capacity : 0 < f.capacity
  held : f.held.length ≤ f.capacity

theorem HasRoom.keep {f : Feed} (h : f.HasRoom) {rest : List UInt8}
    (hrest : rest.length ≤ f.held.length) (offset : Nat) : (f.keep offset rest).HasRoom :=
  ⟨h.plan, h.capacity, Nat.le_trans hrest h.held⟩

/-- Once more bytes are needed there is room for one. -/
theorem HasRoom.length_held_lt {f : Feed} (h : f.HasRoom) : f.held.length < f.nextCapacity := by
  have := h.capacity
  have := h.held
  unfold nextCapacity
  split <;> omega

/-- More bytes arrive, and none is lost, unless the source fails behind its last byte; where
nothing arrives, there is nothing left. -/
theorem HasRoom.exists_refill {f : Feed} (h : f.HasRoom)
    (hsource : f.source.data = [] → f.source.failure? = none) :
    ∃ g, f.refill = .ok g ∧ g.HasRoom ∧ g.source.failure? = f.source.failure? ∧
      g.offset = f.offset ∧ g.held ++ g.source.data = f.held ++ f.source.data ∧
      (g.isEnded = true → f.source.data = [] ∧ g.source.data = []) := by
  have hlt := h.length_held_lt
  have hpos := Source.pieceSize_pos (Nat.sub_pos_of_lt hlt) h.plan
  have hle := f.source.pieceSize_le (f.nextCapacity - f.held.length)
  rw [refill, Source.read_of_ne hsource]
  refine ⟨_, rfl, ⟨?_, ?_, ?_⟩, rfl, rfl, ?_, ?_⟩
  · intro hmem
    have hsub : f.source.awake.tail.Sublist f.source.plan :=
      (List.tail_sublist _).trans (List.dropWhile_sublist _)
    exact h.plan (hsub.subset hmem)
  · exact Nat.lt_of_le_of_lt (Nat.zero_le _) hlt
  · rw [List.length_append, List.length_take]
    show _ ≤ f.nextCapacity
    omega
  · rw [List.append_assoc, List.take_append_drop]
  · -- an empty piece means that the source has nothing left
    intro hempty
    cases hdata : f.source.data with
    | nil => exact ⟨rfl, List.drop_nil⟩
    | cons b data =>
      obtain ⟨n, hn⟩ := Nat.exists_eq_add_of_lt hpos
      rw [hn, hdata] at hempty
      simp at hempty

/-- What a buffer keeps before a source that never fails: at the end there are no more bytes. -/
structure IsSteady (f : Feed) : Prop where
  room : f.HasRoom
  failure : f.source.failure? = none
  ended : f.isEnded = true → f.source.data = []

theorem IsSteady.keep {f : Feed} (h : f.IsSteady) {rest : List UInt8}
    (hrest : rest.length ≤ f.held.length) (offset : Nat) : (f.keep offset rest).IsSteady :=
  ⟨h.room.keep hrest offset, h.failure, h.ended⟩

theorem IsSteady.keep_nil {f : Feed} (h : f.IsSteady) (offset : Nat) :
    (f.keep offset []).IsSteady :=
  h.keep (Nat.zero_le _) offset

/-- More bytes arrive, and none is lost. -/
theorem IsSteady.exists_refill {f : Feed} (h : f.IsSteady) :
    ∃ g, f.refill = .ok g ∧ g.IsSteady ∧ g.offset = f.offset ∧
      g.held ++ g.source.data = f.held ++ f.source.data := by
  obtain ⟨g, hg, hroom, hfailure, hoffset, hbytes, hended⟩ :=
    h.room.exists_refill fun _ => h.failure
  exact ⟨g, hg, ⟨hroom, hfailure.trans h.failure, fun h => (hended h).2⟩, hoffset, hbytes⟩

/-- The tokens of a feed that was refilled, if they are those of its bytes. -/
theorem IsSteady.tokens_refill {f g : Feed} (h : f.IsSteady) (hg : f.refill = .ok g)
    (ih : g.IsSteady → g.tokens = (lex true g.offset (g.held ++ g.source.data)).stream) :
    g.tokens = (lex true f.offset (f.held ++ f.source.data)).stream := by
  obtain ⟨g', hg', hsteady, hoffset, hbytes⟩ := h.exists_refill
  rw [hg] at hg'
  cases hg'
  rw [ih hsteady, hoffset, hbytes]

/-- **The tokens are those of all bytes together**: those that are held, and those that the source
still has. -/
theorem tokens_eq (f : Feed) (h : f.IsSteady) :
    f.tokens = (lex true f.offset (f.held ++ f.source.data)).stream := by
  have hfront : ∀ f : Feed, ¬ f.isEnded = true →
      lex f.isEnded f.offset f.held = lex false f.offset f.held := by
    intro f hf
    rw [Bool.not_eq_true] at hf
    rw [hf]
  -- the induction is on what may still arrive
  fun_induction tokens f with
  | case1 f lexed hended =>
    rw [h.ended hended, List.append_nil]
    simp only [lexed, hended]
    rfl
  | case2 f lexed hended offset e hstop =>
    rw [lex_append, ← hfront f hended, Lexed.resume, hstop, Lexed.stream, hstop]
    rfl
  | case3 f lexed hended offset hstop g hg more ih =>
    have hmore := (h.keep_nil offset).tokens_refill hg ih
    rw [lex_append, ← hfront f hended, Lexed.resume, hstop]
    simp only [more, hmore]
    rfl
  | case4 f lexed hended offset hstop words hg =>
    obtain ⟨g, hrefill, -⟩ := (h.keep_nil offset).exists_refill
    rw [hrefill] at hg
    cases hg
  | case5 f lexed hended offset rest hstop g hg more ih =>
    have hmore := (h.keep (length_le_of_stop_lex hstop) offset).tokens_refill hg ih
    rw [lex_append, ← hfront f hended, Lexed.resume, hstop]
    simp only [more, hmore]
    rfl
  | case6 f lexed hended offset rest hstop words hg =>
    obtain ⟨g, hrefill, -⟩ := (h.keep (length_le_of_stop_lex hstop) offset).exists_refill
    rw [hrefill] at hg
    cases hg

/-- An empty buffer before a source that hands out at least a byte. -/
theorem hasRoom_ofSource {s : Source} (hplan : Delivery.upTo 0 ∉ s.plan) (size : Nat) :
    (ofSource s size).HasRoom :=
  ⟨hplan, Nat.le_max_right _ _, Nat.zero_le _⟩

/-- An empty buffer before a source that never fails and hands out at least a byte. -/
theorem isSteady_ofSource {s : Source} (hfailure : s.failure? = none)
    (hplan : Delivery.upTo 0 ∉ s.plan) (size : Nat) : (ofSource s size).IsSteady :=
  ⟨hasRoom_ofSource hplan size, hfailure, fun h => by cases h⟩

end Feed

/-- **A text is taken in alike in pieces and as a whole**: from a source that hands out the bytes
in pieces of any sizes, at least a byte at a time, with any interruptions, and through a buffer of
any size. -/
theorem Builder.pushSource_eq_pushBytes (b : Builder) (o : ReadOptions) (s : Source)
    (hfailure : s.failure? = none) (hplan : Delivery.upTo 0 ∉ s.plan) :
    b.pushSource o s = b.pushBytes o s.data := by
  rw [pushSource, pushBytes, Feed.tokens_eq _ (Feed.isSteady_ofSource hfailure hplan _)]
  rfl

/-- A list of one number that is cut in two, with interruptions before both pieces, through a
buffer of no size. -/
theorem Builder.pushSource_eq_pushBytes_pieces :
    Delivery.upTo 0 ∉ [Delivery.interrupted, .upTo 2, .interrupted, .interrupted, .upTo 1] ∧
      (Builder.new {}).pushSource { bufferSize := 0 } ⟨[0x5b, 0x31, 0x32, 0x5d],
          [.interrupted, .upTo 2, .interrupted, .interrupted, .upTo 1], none⟩
        = (Builder.new {}).pushBytes { bufferSize := 0 } [0x5b, 0x31, 0x32, 0x5d] := by
  have hplan : Delivery.upTo 0
      ∉ [Delivery.interrupted, .upTo 2, .interrupted, .interrupted, .upTo 1] := by decide
  exact ⟨hplan, pushSource_eq_pushBytes _ _ ⟨_, _, none⟩ rfl hplan⟩

end Columnar
