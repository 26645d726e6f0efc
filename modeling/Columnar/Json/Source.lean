/-!
# Sources of bytes

A source hands out bytes in pieces of its own choosing, never more than it is offered room
for.  It may be interrupted any number of times before it hands out a piece; the caller
then simply asks again.  An empty piece looks like the end.  Behind its last byte a source
either ends or fails.

## Main definitions

* `Delivery`, `Source` — what a source does when asked, and the bytes it has.
* `Source.read` — the next piece.
-/

namespace Columnar

/-- What a source does when asked for bytes. -/
inductive Delivery
  /-- It hands out nothing and has to be asked again. -/
  | interrupted
  /-- It hands out no more than this many bytes. -/
  | upTo (n : Nat)
  deriving DecidableEq, Repr

/-- Whether the caller has to ask again. -/
def Delivery.isInterrupted : Delivery → Bool
  | interrupted => true
  | upTo _ => false

/-- A source of bytes. -/
structure Source where
  /-- The bytes still to come. -/
  data : List UInt8
  /-- What the source does when asked, call by call; after that it hands out whatever there
  is room for. -/
  plan : List Delivery
  /-- The words with which it fails behind its last byte, unless it ends there. -/
  failure? : Option String
  deriving Repr

namespace Source

/-- The plan from the first call that is not interrupted. -/
def awake (s : Source) : List Delivery := s.plan.dropWhile Delivery.isInterrupted

/-- The size of the next piece, if there are bytes enough. -/
def pieceSize (s : Source) (room : Nat) : Nat :=
  match s.awake.head? with
  | some (.upTo n) => min n room
  | _ => room

/-- The next piece and the source behind it, or the words of a failure.  Interruptions are
passed over. -/
def read (s : Source) (room : Nat) : Except String (List UInt8 × Source) :=
  match s.data, s.failure? with
  | [], some words => .error words
  | data, failure? =>
    let n := s.pieceSize room
    .ok (data.take n, ⟨data.drop n, s.awake.tail, failure?⟩)

/-- Reading neither adds bytes nor loses any. -/
theorem append_of_read {s t : Source} {room : Nat} {piece : List UInt8}
    (h : s.read room = .ok (piece, t)) : piece ++ t.data = s.data := by
  unfold read at h
  split at h
  · simp at h
  · simp only [Except.ok.injEq, Prod.mk.injEq] at h
    obtain ⟨rfl, rfl⟩ := h
    simp

end Source

end Columnar
