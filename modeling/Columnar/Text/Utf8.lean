/-!
# UTF-8

Bytes are decoded one at a time.  Between characters nothing is pending; inside one, the
pending part knows how many bytes are still owed and between which bounds the next one has
to lie.  A byte outside the bounds ends an invalid piece, the longest start of a character
that is not one, and begins anew.

## Main definitions

* `Utf8.encode`, `Utf8.encodeString` — characters to bytes.
* `Utf8.pieces` — bytes to characters and invalid pieces, none of them empty.
* `Utf8.decode?` — the characters of valid bytes.
* `Utf8.validLength` — how many bytes come before the first invalid piece.
* `Utf8.lossy` — text in which U+FFFD stands for each invalid piece.
-/

namespace Columnar.Utf8

/-- The bytes of a list of characters. -/
def encode (cs : List Char) : List UInt8 := cs.flatMap String.utf8EncodeChar

/-- The bytes of a text. -/
def encodeString (s : String) : List UInt8 := encode s.toList

@[simp] theorem encode_nil : encode [] = [] := rfl

@[simp] theorem encode_cons (c : Char) (cs : List Char) :
    encode (c :: cs) = String.utf8EncodeChar c ++ encode cs := rfl

@[simp] theorem encode_append (cs ds : List Char) :
    encode (cs ++ ds) = encode cs ++ encode ds := by simp [encode]

/-- The number of bytes of a list of characters. -/
def width : List Char → Nat
  | [] => 0
  | c :: cs => c.utf8Size + width cs

/-- One step of decoded bytes: a character, or a number of bytes that begin no character. -/
inductive Piece
  /-- A whole character. -/
  | char (c : Char)
  /-- The longest start of a character at a place where none follows, and its bytes. -/
  | invalid (width : Nat)
  deriving DecidableEq, Repr

/-- A character whose first bytes have been seen. -/
structure Pending where
  /-- The bits collected so far. -/
  code : Nat
  /-- The bytes seen so far. -/
  taken : Nat
  /-- The bytes owed, less one. -/
  more : Nat
  /-- The least byte that may come next. -/
  low : UInt8
  /-- The greatest byte that may come next. -/
  high : UInt8
  deriving DecidableEq, Repr

/-- What a byte between two characters can be. -/
inductive Lead
  /-- A character of one byte. -/
  | single (c : Char)
  /-- The first byte of a longer character. -/
  | opening (p : Pending)
  /-- A byte that begins no character. -/
  | stray
  deriving DecidableEq, Repr

/-- Classifies a byte between characters.  The bounds on the second byte leave out
overlong forms, surrogates and codes past U+10FFFF. -/
def lead (b : UInt8) : Lead :=
  let n := b.toNat
  if n < 0x80 then .single (Char.ofNat n)
  else if n < 0xc2 then .stray
  else if n < 0xe0 then .opening ⟨n - 0xc0, 1, 0, 0x80, 0xbf⟩
  else if n = 0xe0 then .opening ⟨0, 1, 1, 0xa0, 0xbf⟩
  else if n = 0xed then .opening ⟨0xd, 1, 1, 0x80, 0x9f⟩
  else if n < 0xf0 then .opening ⟨n - 0xe0, 1, 1, 0x80, 0xbf⟩
  else if n = 0xf0 then .opening ⟨0, 1, 2, 0x90, 0xbf⟩
  else if n < 0xf4 then .opening ⟨n - 0xf0, 1, 2, 0x80, 0xbf⟩
  else if n = 0xf4 then .opening ⟨4, 1, 2, 0x80, 0x8f⟩
  else .stray

/-- The code after one more byte of a character. -/
def Pending.push (p : Pending) (b : UInt8) : Nat := p.code * 64 + (b.toNat - 0x80)

/-- The pieces of the bytes that follow a pending character. -/
def piecesFrom : Option Pending → List UInt8 → List Piece
  | none, [] => []
  | some p, [] => [.invalid p.taken]
  | none, b :: rest =>
    match lead b with
    | .single c => .char c :: piecesFrom none rest
    | .opening p => piecesFrom (some p) rest
    | .stray => .invalid 1 :: piecesFrom none rest
  | some p, b :: rest =>
    if p.low ≤ b ∧ b ≤ p.high then
      match p.more with
      | 0 => .char (Char.ofNat (p.push b)) :: piecesFrom none rest
      | more + 1 => piecesFrom (some ⟨p.push b, p.taken + 1, more, 0x80, 0xbf⟩) rest
    else
      .invalid p.taken ::
        match lead b with
        | .single c => .char c :: piecesFrom none rest
        | .opening q => piecesFrom (some q) rest
        | .stray => .invalid 1 :: piecesFrom none rest

/-- Bytes cut into characters and invalid pieces. -/
def pieces (bytes : List UInt8) : List Piece := piecesFrom none bytes

/-- The characters of a list of pieces, if no piece is invalid. -/
def charsOf? : List Piece → Option (List Char)
  | [] => some []
  | .char c :: rest => (charsOf? rest).map (c :: ·)
  | .invalid _ :: _ => none

/-- The characters of valid bytes. -/
def decode? (bytes : List UInt8) : Option (List Char) := charsOf? (pieces bytes)

/-- The text of valid bytes. -/
def decodeString? (bytes : List UInt8) : Option String := (decode? bytes).map String.ofList

/-- The bytes of the pieces before the first invalid one. -/
def validPieces : List Piece → Nat
  | .char c :: rest => c.utf8Size + validPieces rest
  | _ => 0

/-- How many bytes come before the first invalid piece. -/
def validLength (bytes : List UInt8) : Nat := validPieces (pieces bytes)

/-- The character of a piece; U+FFFD stands for an invalid one. -/
def Piece.toChar : Piece → Char
  | .char c => c
  | .invalid _ => '\uFFFD'

/-- The text of any bytes, invalid pieces replaced. -/
def lossy (bytes : List UInt8) : String := String.ofList ((pieces bytes).map Piece.toChar)

end Columnar.Utf8
