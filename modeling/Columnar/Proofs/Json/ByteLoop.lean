import Columnar.Proofs.Json.Content

/-!
# Strings a byte at a time

A string in a buffer is passed over from its opening quote by a place that moves on: two bytes
behind a backslash, one byte otherwise.  Windows of sixteen bytes only make the place move faster.
They are read as words of the machine, whose first byte fills the lowest lane or the highest one;
the tests on words say the same in both orders, since they ask whether some lane is small.

## Main definitions

* `stringEnd` — the loop over places, without windows.
* `ByteOrder.word` — a window as a word of the machine.
* `ByteOrder.isPlain` — whether a window may be passed over.

## Main results

* `stringEnd_eq` — the loop finds what stands before the closing quote.
* `fastPath_exact` — **windows change nothing, and their tests are exact.**
-/

namespace Columnar

/-! ### The loop -/

/-- Where a string in a buffer ends. -/
inductive StringEnd
  /-- At a closing quote; whether there was a backslash before it. -/
  | closed (place : Nat) (hasEscapes : Bool)
  /-- Not in the buffer. -/
  | unclosed
  /-- At a control. -/
  | control (b : UInt8) (place : Nat)
  deriving DecidableEq, Repr

/-- The end of a string that has been followed up to a place, a byte at a time. -/
def stringEnd (buffer : List UInt8) (place : Nat) (hasEscapes : Bool) : StringEnd :=
  match _h : buffer[place]? with
  | none => .unclosed
  | some b =>
    if b = Window.quote then .closed place hasEscapes
    else if b = Window.backslash then
      if buffer.length ≤ place + 1 then .unclosed else stringEnd buffer (place + 2) true
    else if b < 0x20 then .control b place
    else stringEnd buffer (place + 1) hasEscapes
termination_by buffer.length - place
decreasing_by
  all_goals
    have := (List.getElem?_eq_some_iff.mp _h).1
    omega

namespace StringEnd

/-- What a string that starts with the quote at `start` comes to: its token up to behind the
closing quote, or the fault. -/
def scanned (atEof : Bool) (buffer : List UInt8) (start : Nat) : StringEnd → Scanned
  | closed place hasEscapes =>
    .token (.string ((buffer.take place).drop (start + 1)) hasEscapes) start (place + 1 - start)
  | unclosed => touchingEnd atEof .string start (buffer.length - start)
  | control b place => .error start (.controlCharacter (charOfByte b)) place 1

end StringEnd

/-- The end of a string of which some content follows a place. -/
def Content.stringEnd (place : Nat) (escape : Bool) : Content → StringEnd
  | closed content hasEscapes => .closed (place + content.length) (escape || hasEscapes)
  | unclosed => .unclosed
  | control b count => .control b (place + count)

theorem Content.stringEnd_behind (c : Content) (front : List UInt8) (place : Nat)
    (escape escape' : Bool) : (c.behind front escape').stringEnd place escape
      = c.stringEnd (place + front.length) (escape || escape') := by
  cases c with
  | closed content hasEscapes =>
    simp only [behind, stringEnd, List.length_append, Nat.add_assoc, Bool.or_assoc]
  | unclosed => rfl
  | control b count => simp only [behind, stringEnd, Nat.add_assoc]

/-- The loop finds what stands before the closing quote. -/
theorem stringEnd_eq (buffer : List UInt8) (place : Nat) (hasEscapes : Bool) :
    stringEnd buffer place hasEscapes
      = (scanContentByByte (buffer.drop place)).stringEnd place hasEscapes := by
  -- the bytes behind a place, from the byte that stands there
  have hcons : ∀ {place : Nat} {b : UInt8}, buffer[place]? = some b →
      buffer.drop place = b :: buffer.drop (place + 1) := by
    intro place b h
    obtain ⟨hlt, rfl⟩ := List.getElem?_eq_some_iff.mp h
    exact List.drop_eq_getElem_cons hlt
  fun_induction stringEnd buffer place hasEscapes with
  | case1 place hasEscapes h =>
    rw [List.drop_eq_nil_of_le (List.getElem?_eq_none_iff.mp h)]
    rfl
  | case2 place hasEscapes h =>
    rw [hcons h, scanContentByByte_quote]
    simp [Content.stringEnd]
  | case3 place hasEscapes hend h _ =>
    rw [hcons h, List.drop_eq_nil_of_le hend]
    rfl
  | case4 place hasEscapes hlt h _ ih =>
    have hnext := List.getElem?_eq_getElem (Nat.not_le.mp hlt)
    rw [hcons h, hcons hnext, scanContentByByte_backslash, Content.stringEnd_behind, ih,
      Bool.or_true]
    rfl
  | case5 place hasEscapes b h hq hb hc =>
    rw [hcons h, scanContentByByte_control hq hb hc]
    rfl
  | case6 place hasEscapes b h hq hb hc ih =>
    rw [hcons h, scanContentByByte_cons hq hb hc, Content.stringEnd_behind, ih, Bool.or_false]
    rfl

/-- A string is found where the loop ends it. -/
theorem scanString_eq_scanned (atEof : Bool) {buffer : List UInt8} {start : Nat}
    (h : buffer[start]? = some Window.quote) : scanString atEof start (buffer.drop (start + 1))
      = (stringEnd buffer (start + 1) false).scanned atEof buffer start := by
  rw [stringEnd_eq, scanString, scanContent_eq]
  cases hc : scanContentByByte (buffer.drop (start + 1)) with
  | closed content hasEscapes =>
    obtain ⟨-, rest, hrest⟩ := scanContentByByte_eq_closed_iff.mp hc
    have hcontent : (buffer.take (start + 1 + content.length)).drop (start + 1) = content := by
      rw [List.drop_take, hrest, Nat.add_sub_cancel_left, List.take_left]
    simp only [Content.stringEnd, StringEnd.scanned, hcontent, Bool.false_or]
    congr 1
    omega
  | unclosed =>
    have hlt := (List.getElem?_eq_some_iff.mp h).1
    simp only [Content.stringEnd, StringEnd.scanned, List.length_drop]
    congr 1
    omega
  | control b count => rfl

/-! ### Words of the machine -/

/-- Which lane of a word the first byte of a window fills. -/
inductive ByteOrder
  /-- The lowest. -/
  | little
  /-- The highest. -/
  | big
  deriving DecidableEq, Repr

namespace ByteOrder

/-- A window as a word of the machine. -/
def word : ByteOrder → List UInt8 → BitVec 128
  | little, window => Window.ofBytes window
  | big, window => Window.ofBytes window.reverse

/-- Whether sixteen bytes are there that may be passed over, by the words of the machine. -/
def isPlain (order : ByteOrder) (bytes : List UInt8) : Bool :=
  let window := bytes.take Window.size
  window.length == Window.size &&
    let word := order.word window
    !(Window.containsByte word Window.quote || Window.containsByte word Window.backslash
      || Window.containsControl word)

variable {window : List UInt8}

theorem containsByte_word (order : ByteOrder) (h : window.length = Window.size) (b : UInt8) :
    Window.containsByte (order.word window) b = true ↔ b ∈ window := by
  cases order with
  | little => exact Window.containsByte_ofBytes h b
  | big =>
    rw [word, Window.containsByte_ofBytes (by rw [List.length_reverse, h]), List.mem_reverse]

theorem containsControl_word (order : ByteOrder) (h : window.length = Window.size) :
    Window.containsControl (order.word window) = true ↔ ∃ b ∈ window, b < 0x20 := by
  cases order with
  | little => exact Window.containsControl_ofBytes h
  | big =>
    rw [word, Window.containsControl_ofBytes (by rw [List.length_reverse, h])]
    simp only [List.mem_reverse]

/-- The order does not matter for what is passed over. -/
theorem isPlain_eq (order : ByteOrder) (bytes : List UInt8) :
    order.isPlain bytes = Window.isPlain bytes := by
  by_cases h : (bytes.take Window.size).length = Window.size
  · have hbyte : ∀ b, Window.containsByte (order.word (bytes.take Window.size)) b
        = Window.containsByte (Window.ofBytes (bytes.take Window.size)) b := by
      intro b
      rw [Bool.eq_iff_iff, order.containsByte_word h, Window.containsByte_ofBytes h]
    have hcontrol : Window.containsControl (order.word (bytes.take Window.size))
        = Window.containsControl (Window.ofBytes (bytes.take Window.size)) := by
      rw [Bool.eq_iff_iff, order.containsControl_word h, Window.containsControl_ofBytes h]
    simp only [isPlain, Window.isPlain, hbyte, hcontrol]
  · have hfalse : ((bytes.take Window.size).length == Window.size) = false :=
      beq_eq_false_iff_ne.mpr h
    simp only [isPlain, Window.isPlain, hfalse, Bool.false_and]

end ByteOrder

/-- **Windows change nothing, and their tests are exact.**  From every quote of every buffer, a
string comes to what the loop over single bytes makes of it; and for every window and both orders
of bytes, the tests on its word find the byte and the controls that are in it, so that the same
windows are passed over. -/
theorem fastPath_exact :
    (∀ (atEof : Bool) (buffer : List UInt8) (start : Nat), buffer[start]? = some Window.quote →
      scanString atEof start (buffer.drop (start + 1))
        = (stringEnd buffer (start + 1) false).scanned atEof buffer start) ∧
    ∀ (order : ByteOrder) (window : List UInt8), window.length = Window.size →
      (∀ b, Window.containsByte (order.word window) b = true ↔ b ∈ window) ∧
      (Window.containsControl (order.word window) = true ↔ ∃ b ∈ window, b < 0x20) ∧
      ∀ rest, order.isPlain (window ++ rest) = Window.isPlain (window ++ rest) := by
  constructor
  · intro atEof buffer start h
    exact scanString_eq_scanned atEof h
  · intro order window h
    refine ⟨order.containsByte_word h, order.containsControl_word h, ?_⟩
    intro rest
    exact order.isPlain_eq (window ++ rest)

/-- Sixteen bytes past `0x7f` are passed over at once, whichever byte comes first in a word; then
come an escaped quote and the closing one. -/
theorem fastPath_exact_window :
    (0x20 :: 0x22 :: (List.replicate 16 0xff ++ [0x5c, 0x22, 0x22]) : List UInt8)[1]?
        = some Window.quote ∧
      scanString false 1 (List.replicate 16 0xff ++ [0x5c, 0x22, 0x22])
        = .token (.string (List.replicate 16 0xff ++ [0x5c, 0x22]) true) 1 20 ∧
      (List.replicate 16 (0xff : UInt8)).length = Window.size ∧
      ByteOrder.big.isPlain (List.replicate 16 0xff ++ [0x5c, 0x22, 0x22]) = true := by
  refine ⟨rfl, ?_, rfl, ?_⟩
  · have hloop := fastPath_exact.1 false
      (0x20 :: 0x22 :: (List.replicate 16 0xff ++ [0x5c, 0x22, 0x22])) 1 rfl
    rw [stringEnd_eq] at hloop
    exact hloop
  · rw [(fastPath_exact.2 .big (List.replicate 16 0xff) rfl).2.2]
    decide

end Columnar
