/-!
# Windows of sixteen bytes

A window is sixteen bytes taken as one word of 128 bits, a byte per lane.  Whether some
lane holds a given byte, or one below the blank, is decided for all lanes at once: a
subtraction borrows from the highest bit of a lane exactly where the lane was too small,
and a borrow that reaches the next lane can only do so where the answer is settled already.

## Main definitions

* `Window.ofBytes`, `Window.splat` — the word of sixteen bytes, and of one byte sixteen times.
* `Window.containsByte`, `Window.containsControl` — what some lane holds.
* `Window.isPlain` — whether a list starts with sixteen bytes that a string may hold as
  they are, without its end among them.
-/

namespace Columnar.Window

/-- The number of bytes in a window. -/
def size : Nat := 16

/-- The number that bytes make, the first byte counting least. -/
def natOfBytes (bytes : List UInt8) : Nat := bytes.foldr (fun b n => b.toNat + 256 * n) 0

/-- The word of a list of bytes, the first byte in the lowest lane. -/
def ofBytes (bytes : List UInt8) : BitVec 128 := BitVec.ofNat 128 (natOfBytes bytes)

/-- The lowest bit of every lane. -/
def lowBits : BitVec 128 := 0x01010101010101010101010101010101#128

/-- The word that has the same byte in every lane. -/
def splat (b : UInt8) : BitVec 128 := lowBits * BitVec.ofNat 128 b.toNat

/-- The highest bit of every lane. -/
def highBits : BitVec 128 := 0x80808080808080808080808080808080#128

/-- The blank in every lane. -/
def blanks : BitVec 128 := 0x20202020202020202020202020202020#128

/-- Whether some lane holds the byte. -/
def containsByte (window : BitVec 128) (b : UInt8) : Bool :=
  let differences := window ^^^ splat b
  (differences - lowBits) &&& ~~~differences &&& highBits != 0

/-- Whether some lane holds a byte below the blank. -/
def containsControl (window : BitVec 128) : Bool :=
  (window - blanks) &&& ~~~window &&& highBits != 0

/-- The quote. -/
def quote : UInt8 := 0x22

/-- The backslash. -/
def backslash : UInt8 := 0x5c

/-- Whether the first sixteen bytes are there, and none of them is a quote, a backslash or a
control. -/
def isPlain (bytes : List UInt8) : Bool :=
  let window := bytes.take size
  window.length == size &&
    let word := ofBytes window
    !(containsByte word quote || containsByte word backslash || containsControl word)

theorem natOfBytes_cons (b : UInt8) (bytes : List UInt8) :
    natOfBytes (b :: bytes) = b.toNat + 256 * natOfBytes bytes := rfl

/-- Sixteen equal bytes make the word that has this byte in every lane. -/
theorem ofBytes_replicate (b : UInt8) : ofBytes (List.replicate size b) = splat b := by
  have h : natOfBytes (List.replicate size b) = 0x01010101010101010101010101010101 * b.toNat := by
    simp only [size, List.replicate, natOfBytes_cons, show natOfBytes [] = 0 from rfl]
    omega
  apply BitVec.eq_of_toNat_eq
  rw [ofBytes, h, splat, BitVec.toNat_mul, BitVec.toNat_ofNat, BitVec.toNat_ofNat, lowBits,
    BitVec.toNat_ofNat]
  have := b.toNat_lt
  omega

theorem size_le_of_isPlain {bytes : List UInt8} (h : isPlain bytes = true) :
    size ≤ bytes.length := by
  simp only [isPlain, Bool.and_eq_true, beq_iff_eq, List.length_take] at h
  omega

end Columnar.Window
