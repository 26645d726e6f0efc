import Columnar.Json.Scan
import Columnar.Json.Source

/-!
# Tokens of a source

The bytes of a source are gathered in a buffer and its tokens are found there.  Between
tokens the buffer is emptied; a token that the bytes at hand do not complete stays, with
more bytes behind it, and is looked for again.  The buffer doubles when such a token fills
it.

A buffer only says how the bytes arrive: places are counted from the start of the input,
and the tokens come out one after another as if the bytes had all been there.

## Main definitions

* `TokenStream`, `tokensOf` — all tokens of some bytes, and why there are no more.
* `Feed`, `Feed.ofSource` — a buffer before a source.
* `Feed.refill` — more bytes.
* `Feed.tokens` — all tokens of a source.
-/

namespace Columnar

/-- Why there is no further token. -/
inductive Ending
  /-- The input ends between tokens. -/
  | finished (offset : Nat)
  /-- There is none. -/
  | unscannable (e : ScanError)
  /-- The source failed where the input goes on. -/
  | unreadable (offset : Nat) (words : String)
  deriving DecidableEq, Repr

/-- The tokens of an input, and why there are no more. -/
structure TokenStream where
  /-- The tokens, in order. -/
  tokens : List Located
  /-- What comes behind them. -/
  ending : Ending
  deriving DecidableEq, Repr

/-- What a run of bytes that nothing follows ends with.  It leaves no token incomplete
(`stop_lex_ne_incomplete`), so the second case does not arise. -/
def Stop.ending : Stop → Ending
  | finished offset => .finished offset
  | incomplete offset _ => .finished offset
  | error _ e => .unscannable e

/-- All tokens of a whole input. -/
def tokensOf (bytes : List UInt8) : TokenStream :=
  let lexed := lex true 0 bytes
  ⟨lexed.tokens, lexed.stop.ending⟩

/-- A buffer before a source. -/
structure Feed where
  /-- The source of further bytes. -/
  source : Source
  /-- The number of bytes that the buffer has room for. -/
  capacity : Nat
  /-- The bytes in the buffer. -/
  held : List UInt8
  /-- The place of the first of them in the input. -/
  offset : Nat
  /-- Whether no bytes will follow. -/
  isEnded : Bool

namespace Feed

/-- An empty buffer of a size, at least one byte, before a source. -/
def ofSource (s : Source) (size : Nat) : Feed := ⟨s, max size 1, [], 0, false⟩

/-- The room for bytes once more of them are needed: a full buffer doubles. -/
def nextCapacity (f : Feed) : Nat :=
  if f.held.length = f.capacity then f.capacity * 2 else f.capacity

/-- More bytes behind those that are held, or the end, or the words of a failure. -/
def refill (f : Feed) : Except String Feed :=
  match f.source.read (f.nextCapacity - f.held.length) with
  | .ok (piece, source) =>
    .ok { source, capacity := f.nextCapacity, held := f.held ++ piece, offset := f.offset,
          isEnded := piece.isEmpty }
  | .error words => .error words

/-- How much may still arrive: the bytes of the source, and its end. -/
def outstanding (f : Feed) : Nat := f.source.data.length + if f.isEnded then 0 else 1

/-- The buffer from the given bytes on. -/
def keep (f : Feed) (offset : Nat) (rest : List UInt8) : Feed := { f with held := rest, offset }

/-- Bytes arrive, or the end does. -/
theorem outstanding_lt_of_refill {f g : Feed} (hf : f.isEnded = false) (h : f.refill = .ok g) :
    g.outstanding < f.outstanding := by
  unfold refill at h
  split at h
  · next piece source hread =>
    injection h with h
    subst h
    have := congrArg List.length (Source.append_of_read hread)
    rw [List.length_append] at this
    simp only [outstanding, hf]
    cases piece with
    | nil => simp at this ⊢; omega
    | cons b bs => simp only [List.length_cons] at this; simp; omega
  · simp at h

/-- The tokens of the bytes that are held and of all that follow. -/
def tokens (f : Feed) : TokenStream :=
  let lexed := lex f.isEnded f.offset f.held
  if _hf : f.isEnded then ⟨lexed.tokens, lexed.stop.ending⟩
  else
    match lexed.stop with
    | .error _ e => ⟨lexed.tokens, .unscannable e⟩
    | .finished offset =>
      match _hg : (f.keep offset []).refill with
      | .ok g => let more := g.tokens; ⟨lexed.tokens ++ more.tokens, more.ending⟩
      | .error words => ⟨lexed.tokens, .unreadable offset words⟩
    | .incomplete offset rest =>
      match _hg : (f.keep offset rest).refill with
      | .ok g => let more := g.tokens; ⟨lexed.tokens ++ more.tokens, more.ending⟩
      | .error words => ⟨lexed.tokens, .unreadable (offset + rest.length) words⟩
termination_by f.outstanding
decreasing_by
  all_goals
    have := outstanding_lt_of_refill (by simpa [keep] using _hf) _hg
    exact this

end Feed

end Columnar
