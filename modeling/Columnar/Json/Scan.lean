import Columnar.Json.Token
import Columnar.Json.Window
import Columnar.Decimal

/-!
# Finding tokens

The next token of a text is found from its bytes alone.  A token that touches the end of
the bytes may go on behind them; unless the bytes are all there is, it is reported as
incomplete and looked for again once there are more.

Strings are skipped sixteen bytes at a time while nothing in them matters, and a byte at a
time otherwise.

## Main definitions

* `Content`, `scanContent`, `scanContentByByte` — the bytes of a string up to its closing
  quote, in windows and without them.
* `NumberParts`, `splitNumber`, `NumberParts.flaw?` — the parts of a number, and the first
  place where they break the grammar.
* `Scanned`, `scanToken` — the next token.
* `Lexed`, `lex` — all tokens of a run of bytes.
-/

namespace Columnar

/-! ### Strings -/

/-- What follows the opening quote of a string. -/
inductive Content
  /-- The bytes up to the closing quote, and whether a backslash is among them. -/
  | closed (content : List UInt8) (hasEscapes : Bool)
  /-- There is no closing quote. -/
  | unclosed
  /-- A control, and how many bytes come before it. -/
  | control (b : UInt8) (place : Nat)
  deriving DecidableEq, Repr

/-- What follows some bytes that belong to a string. -/
def Content.behind (bytes : List UInt8) (escape : Bool) : Content → Content
  | closed content hasEscapes => closed (bytes ++ content) (escape || hasEscapes)
  | unclosed => unclosed
  | control b place => control b (bytes.length + place)

/-- The bytes of a string up to its closing quote, a byte at a time.  The byte behind a
backslash never ends the string. -/
def scanContentByByte : List UInt8 → Content
  | [] => .unclosed
  | b :: rest =>
    if b = Window.quote then .closed [] false
    else if b = Window.backslash then
      match rest with
      | [] => .unclosed
      | e :: rest' => (scanContentByByte rest').behind [b, e] true
    else if b < 0x20 then .control b 0
    else (scanContentByByte rest).behind [b] false

/-- The bytes of a string up to its closing quote, passing over plain windows. -/
def scanContent (bytes : List UInt8) : Content :=
  if _h : Window.isPlain bytes = true then
    (scanContent (bytes.drop Window.size)).behind (bytes.take Window.size) false
  else
    match _hb : bytes with
    | [] => .unclosed
    | b :: rest =>
      if b = Window.quote then .closed [] false
      else if b = Window.backslash then
        match _hr : rest with
        | [] => .unclosed
        | e :: rest' => (scanContent rest').behind [b, e] true
      else if b < 0x20 then .control b 0
      else (scanContent rest).behind [b] false
termination_by bytes.length
decreasing_by
  · have := Window.size_le_of_isPlain _h
    have : 0 < Window.size := by decide
    simp only [List.length_drop]; omega
  · simp only [List.length_cons]; omega
  · simp only [List.length_cons]; omega

/-! ### Numbers -/

/-- The longest run of bytes that looks like a number, in parts; each part may be empty. -/
structure NumberParts where
  /-- Whether it starts with a minus sign. -/
  negative : Bool
  /-- The digits before the point. -/
  whole : List UInt8
  /-- The digits behind the point, if there is one. -/
  fraction : Option (List UInt8)
  /-- The mark and the sign of the exponent, and its digits, if there is one. -/
  exponent : Option (List UInt8 × List UInt8)
  /-- What follows. -/
  rest : List UInt8
  deriving DecidableEq, Repr

/-- The digits at the front, and what follows them. -/
def splitDigitBytes (bytes : List UInt8) : List UInt8 × List UInt8 :=
  (bytes.takeWhile isDigitByte, bytes.dropWhile isDigitByte)

/-- A fraction at the front, and what follows it. -/
def splitFraction : List UInt8 → Option (List UInt8) × List UInt8
  | 0x2e :: rest => (some (splitDigitBytes rest).1, (splitDigitBytes rest).2)
  | bytes => (none, bytes)

/-- An exponent at the front, and what follows it. -/
def splitExponent : List UInt8 → Option (List UInt8 × List UInt8) × List UInt8
  | [] => (none, [])
  | b :: rest =>
    if b = 0x65 ∨ b = 0x45 then
      match rest with
      | 0x2b :: rest' => (some ([b, 0x2b], (splitDigitBytes rest').1), (splitDigitBytes rest').2)
      | 0x2d :: rest' => (some ([b, 0x2d], (splitDigitBytes rest').1), (splitDigitBytes rest').2)
      | _ => (some ([b], (splitDigitBytes rest).1), (splitDigitBytes rest).2)
    else (none, b :: rest)

/-- The parts of the number at the front of a run of bytes. -/
def splitNumber (bytes : List UInt8) : NumberParts :=
  let (negative, unsigned) := match bytes with
    | 0x2d :: rest => (true, rest)
    | _ => (false, bytes)
  let (whole, afterWhole) := splitDigitBytes unsigned
  let (fraction, afterFraction) := splitFraction afterWhole
  let (exponent, rest) := splitExponent afterFraction
  ⟨negative, whole, fraction, exponent, rest⟩

namespace NumberParts

/-- The bytes before the digits. -/
def signBytes (p : NumberParts) : List UInt8 := if p.negative then [0x2d] else []

/-- The bytes of the fraction, its point included. -/
def fractionBytes (p : NumberParts) : List UInt8 :=
  match p.fraction with
  | some ds => 0x2e :: ds
  | none => []

/-- The bytes of the exponent, its mark and sign included. -/
def exponentBytes (p : NumberParts) : List UInt8 :=
  match p.exponent with
  | some (mark, ds) => mark ++ ds
  | none => []

/-- The bytes of all parts. -/
def literal (p : NumberParts) : List UInt8 :=
  p.signBytes ++ p.whole ++ p.fractionBytes ++ p.exponentBytes

/-- What the number looks like. -/
def shape (p : NumberParts) : NumberShape :=
  if p.fraction.isSome || p.exponent.isSome then .real
  else if p.negative then .signed else .unsigned

/-- How many bytes come before the first place where the grammar breaks: there are digits
before the point, the first of several is no zero, and neither fraction nor exponent is
without digits. -/
def flaw? (p : NumberParts) : Option Nat :=
  let wholeStart := p.signBytes.length
  let wholeEnd := wholeStart + p.whole.length
  if p.whole = [] then some wholeStart
  else if p.whole.head? = some 0x30 ∧ 1 < p.whole.length then some (wholeStart + 1)
  else if p.fraction = some [] then some (wholeEnd + 1)
  else
    match p.exponent with
    | some (mark, []) => some (wholeEnd + p.fractionBytes.length + mark.length)
    | _ => none

end NumberParts

/-! ### The next token -/

/-- What comes next in a run of bytes; places are counted from its start. -/
inductive Scanned
  /-- A token behind `skipped` blanks, `width` bytes wide. -/
  | token (t : Token) (skipped width : Nat)
  /-- Nothing but blanks. -/
  | finished (skipped : Nat)
  /-- The start of a token that goes on behind the end. -/
  | incomplete (skipped : Nat)
  /-- No token. -/
  | error (skipped : Nat) (cause : ScanCause) (place length : Nat)
  deriving DecidableEq, Repr

/-- Whether a byte may stand between tokens. -/
def isBlankByte (b : UInt8) : Bool := b == 0x20 || b == 0x09 || b == 0x0a || b == 0x0d

/-- What a token that reaches the end of the bytes comes to. -/
def touchingEnd (atEof : Bool) (context : ScanContext) (skipped left : Nat) : Scanned :=
  if atEof then .error skipped (.unexpectedEof context) skipped left else .incomplete skipped

/-- A string whose opening quote comes before `rest`. -/
def scanString (atEof : Bool) (skipped : Nat) (rest : List UInt8) : Scanned :=
  match scanContent rest with
  | .closed content hasEscapes =>
    .token (.string content hasEscapes) skipped (content.length + 2)
  | .unclosed => touchingEnd atEof .string skipped (rest.length + 1)
  | .control b place => .error skipped (.controlCharacter (charOfByte b)) (skipped + 1 + place) 1

/-- A number at the front of `bytes`. -/
def scanNumber (atEof : Bool) (skipped : Nat) (bytes : List UInt8) : Scanned :=
  let parts := splitNumber bytes
  if parts.rest = [] ∧ ¬ atEof then .incomplete skipped
  else
    match parts.flaw? with
    | none => .token (.number parts.literal parts.shape) skipped parts.literal.length
    | some place =>
      match bytes[place]? with
      | some b => .error skipped (.unexpectedChar (charOfByte b)) (skipped + place) 1
      | none => .error skipped (.unexpectedEof .number) (skipped + place) 1

/-- What the rest of a word comes to, of which `seen` bytes of `total` have been found. -/
def scanWord (atEof : Bool) (t : Token) (skipped total : Nat) :
    Nat → List UInt8 → List UInt8 → Scanned
  | _, [], _ => .token t skipped total
  | seen, _ :: _, [] => touchingEnd atEof .literal skipped seen
  | seen, w :: ws, b :: bs =>
    if b = w then scanWord atEof t skipped total (seen + 1) ws bs
    else .error skipped (.unexpectedChar (charOfByte b)) (skipped + seen) 1

/-- The mark that a byte is. -/
def markOf? (b : UInt8) : Option Token :=
  if b = 0x7b then some .objectStart
  else if b = 0x7d then some .objectEnd
  else if b = 0x5b then some .arrayStart
  else if b = 0x5d then some .arrayEnd
  else if b = 0x3a then some .colon
  else if b = 0x2c then some .comma
  else none

/-- The token at the front of bytes that start with no blank. -/
def scanBody (atEof : Bool) (skipped : Nat) : List UInt8 → Scanned
  | [] => .finished skipped
  | b :: rest =>
    match markOf? b with
    | some t => .token t skipped 1
    | none =>
      if b = Window.quote then scanString atEof skipped rest
      else if b = 0x2d ∨ isDigitByte b then scanNumber atEof skipped (b :: rest)
      else if b = 0x74 then scanWord atEof (.bool true) skipped 4 1 [0x72, 0x75, 0x65] rest
      else if b = 0x66 then scanWord atEof (.bool false) skipped 5 1 [0x61, 0x6c, 0x73, 0x65] rest
      else if b = 0x6e then scanWord atEof .null skipped 4 1 [0x75, 0x6c, 0x6c] rest
      else .error skipped (.unexpectedChar (charOfByte b)) skipped 1

/-- The next token of a run of bytes. -/
def scanToken (atEof : Bool) (bytes : List UInt8) : Scanned :=
  scanBody atEof (bytes.takeWhile isBlankByte).length (bytes.dropWhile isBlankByte)

/-! ### A token takes bytes -/

theorem whole_ne_nil_of_flaw?_eq_none {p : NumberParts} (h : p.flaw? = none) : p.whole ≠ [] := by
  intro hw
  simp [NumberParts.flaw?, hw] at h

theorem literal_ne_nil_of_flaw?_eq_none {p : NumberParts} (h : p.flaw? = none) :
    p.literal ≠ [] := by
  have := whole_ne_nil_of_flaw?_eq_none h
  simp [NumberParts.literal, this]

theorem width_pos_of_scanString {atEof : Bool} {skipped k w : Nat} {rest : List UInt8} {t : Token}
    (h : scanString atEof skipped rest = .token t k w) : 0 < w := by
  unfold scanString at h
  split at h
  · injection h; omega
  · unfold touchingEnd at h; split at h <;> simp at h
  · simp at h

theorem width_pos_of_scanNumber {atEof : Bool} {skipped k w : Nat} {bytes : List UInt8} {t : Token}
    (h : scanNumber atEof skipped bytes = .token t k w) : 0 < w := by
  unfold scanNumber at h
  simp only at h
  split at h
  · simp at h
  · split at h
    · next hf =>
      injection h with _ _ hw
      have := List.length_pos_iff.mpr (literal_ne_nil_of_flaw?_eq_none hf)
      omega
    · split at h <;> simp at h

theorem width_pos_of_scanWord {atEof : Bool} {skipped total k w seen : Nat} {ws bytes : List UInt8}
    {t u : Token} (htotal : 0 < total)
    (h : scanWord atEof t skipped total seen ws bytes = .token u k w) : 0 < w := by
  induction ws generalizing seen bytes with
  | nil => simp only [scanWord] at h; injection h; omega
  | cons c cs ih =>
    cases bytes with
    | nil => simp only [scanWord, touchingEnd] at h; split at h <;> simp at h
    | cons b bs =>
      simp only [scanWord] at h
      split at h
      · exact ih h
      · simp at h

/-- A token is at least one byte wide. -/
theorem width_pos_of_scanBody {atEof : Bool} {skipped k w : Nat} {bytes : List UInt8} {t : Token}
    (h : scanBody atEof skipped bytes = .token t k w) : 0 < w := by
  unfold scanBody at h
  split at h
  · simp at h
  · split at h
    · injection h; omega
    · split at h
      · exact width_pos_of_scanString h
      · split at h
        · exact width_pos_of_scanNumber h
        · split at h
          · exact width_pos_of_scanWord (by decide) h
          · split at h
            · exact width_pos_of_scanWord (by decide) h
            · split at h
              · exact width_pos_of_scanWord (by decide) h
              · simp at h

/-- What follows a token is shorter than what starts with it. -/
theorem length_drop_lt_of_scanToken {atEof : Bool} {k w : Nat} {bytes : List UInt8} {t : Token}
    (h : scanToken atEof bytes = .token t k w) : (bytes.drop (k + w)).length < bytes.length := by
  have hw := width_pos_of_scanBody h
  cases bytes with
  | nil => simp [scanToken, scanBody] at h
  | cons b bs => simp only [List.length_drop, List.length_cons]; omega

/-! ### No token goes on behind the end of the input -/

theorem scanString_ne_incomplete (skipped k : Nat) (rest : List UInt8) :
    scanString true skipped rest ≠ .incomplete k := by
  unfold scanString touchingEnd
  split <;> simp

theorem scanNumber_ne_incomplete (skipped k : Nat) (bytes : List UInt8) :
    scanNumber true skipped bytes ≠ .incomplete k := by
  unfold scanNumber
  simp only [not_true_eq_false, and_false, if_false]
  split
  · simp
  · split <;> simp

theorem scanWord_ne_incomplete (t : Token) (skipped total k : Nat) (ws : List UInt8) :
    ∀ (seen : Nat) (bytes : List UInt8),
      scanWord true t skipped total seen ws bytes ≠ .incomplete k := by
  induction ws with
  | nil => intro seen bytes; simp [scanWord]
  | cons c cs ih =>
    intro seen bytes
    cases bytes with
    | nil => simp [scanWord, touchingEnd]
    | cons b bs =>
      rw [scanWord]
      split
      · exact ih (seen + 1) bs
      · simp

/-- Where the input ends, no token is incomplete. -/
theorem scanToken_ne_incomplete (bytes : List UInt8) (k : Nat) :
    scanToken true bytes ≠ .incomplete k := by
  unfold scanToken scanBody
  split
  · simp
  · split
    · simp
    · split
      · exact scanString_ne_incomplete _ _ _
      · split
        · exact scanNumber_ne_incomplete _ _ _
        · split
          · exact scanWord_ne_incomplete _ _ _ _ _ _ _
          · split
            · exact scanWord_ne_incomplete _ _ _ _ _ _ _
            · split
              · exact scanWord_ne_incomplete _ _ _ _ _ _ _
              · simp

/-! ### All tokens -/

/-- Why there is no further token. -/
inductive Stop
  /-- The bytes end between tokens. -/
  | finished (offset : Nat)
  /-- The bytes end inside the token that starts here; these are its bytes so far. -/
  | incomplete (offset : Nat) (rest : List UInt8)
  /-- There is no token; the text before it ends here. -/
  | error (offset : Nat) (e : ScanError)
  deriving DecidableEq, Repr

/-- The tokens of a run of bytes, and why there are no more. -/
structure Lexed where
  /-- The tokens, in order. -/
  tokens : List Located
  /-- What comes behind them. -/
  stop : Stop
  deriving DecidableEq, Repr

/-- The tokens of bytes of which the first is at `offset` in the input. -/
def lex (atEof : Bool) (offset : Nat) (bytes : List UInt8) : Lexed :=
  match _h : scanToken atEof bytes with
  | .token t skipped width =>
    let more := lex atEof (offset + skipped + width) (bytes.drop (skipped + width))
    ⟨⟨t, ⟨offset + skipped, width⟩⟩ :: more.tokens, more.stop⟩
  | .finished skipped => ⟨[], .finished (offset + skipped)⟩
  | .incomplete skipped => ⟨[], .incomplete (offset + skipped) (bytes.drop skipped)⟩
  | .error skipped cause place length =>
    ⟨[], .error (offset + skipped) ⟨cause, ⟨offset + place, length⟩⟩⟩
termination_by bytes.length
decreasing_by exact length_drop_lt_of_scanToken _h

/-- Where the input ends, no token is left incomplete. -/
theorem stop_lex_ne_incomplete (offset : Nat) (bytes : List UInt8) (k : Nat) (rest : List UInt8) :
    (lex true offset bytes).stop ≠ .incomplete k rest := by
  fun_induction lex true offset bytes with
  | case1 offset bytes t skipped width h more ih => exact ih
  | case2 offset bytes skipped h => simp
  | case3 offset bytes skipped h => exact absurd h (scanToken_ne_incomplete bytes skipped)
  | case4 offset bytes skipped cause place length h => simp

end Columnar
