import Columnar.Document
import Columnar.Decimal
import Columnar.Text.Escaped
import Columnar.Text.Utf8

/-!
# Reading documents

A document is read from the front of a text, together with what follows it.  Nesting is
limited.  A text that cannot be read either ends early or is malformed, and the failure
also tells how far the outermost value had been read, since what a reader wants of it may
be settled by its first members.

Numbers are read with a significand of at most 64 bits: further digits only move the
point, and the power of ten is applied to the rounded significand.

## Main definitions

* `Document.Ending` — the two ways to fail.
* `Document.Outer`, `Document.Failure` — how far the outermost value had been read.
* `Document.readNumber`, `Document.readString` — scalars.
* `Document.readValue` — a document and the text after it.
* `Document.read` — the same for a whole text.
-/

namespace Columnar.Document

/-- Why a text is no document. -/
inductive Ending
  /-- The text ends inside the document. -/
  | early
  /-- Some character cannot stand where it stands. -/
  | malformed
  deriving DecidableEq, Repr

/-- How far the outermost value had been read when reading failed. -/
inductive Outer
  /-- It was no array and no object, or nothing of it was read. -/
  | scalar
  /-- The items read in full, and the first character of the item being read. -/
  | array (items : List Document) (next : Option Char)
  /-- The members read in full, the key of the member being read, and the first character of
  its value. -/
  | object (members : List (String × Document)) (key : Option String) (next : Option Char)

/-- A failure to read a document. -/
structure Failure where
  /-- The way it failed. -/
  ending : Ending
  /-- How far the outermost value had been read. -/
  outer : Outer := .scalar

/-- What reading gives: a result and the text after it. -/
abbrev Read (ε α : Type) := Except ε (α × List Char)

/-! ### Blanks and words -/

/-- Whether a character may stand between the parts of a document. -/
def isBlank (c : Char) : Bool := c == ' ' || c == '\n' || c == '\t' || c == '\r'

/-- The text from its first character that is no blank. -/
def skipBlanks (cs : List Char) : List Char := cs.dropWhile isBlank

/-- The text behind the rest of a word. -/
def expectWord : List Char → List Char → Except Ending (List Char)
  | [], cs => .ok cs
  | _ :: _, [] => .error .early
  | w :: ws, c :: cs => if c = w then expectWord ws cs else .error .malformed

/-! ### Numbers -/

/-- Whether a character is a digit. -/
def isDigit (c : Char) : Bool := '0' ≤ c && c ≤ '9'

/-- The value of a digit. -/
def digitOf (c : Char) : Nat := c.toNat - 48

/-- The digits at the front of a text, and the rest. -/
def splitDigits (cs : List Char) : List Char × List Char :=
  (cs.takeWhile isDigit, cs.dropWhile isDigit)

/-- The largest significand. -/
def maxSignificand : Nat := 0xffffffffffffffff

/-- Takes digits into a significand while it stays within 64 bits; returns the significand
and how many digits were left over. -/
def takeDigits (significand : Nat) : List Char → Nat × Nat
  | [] => (significand, 0)
  | c :: cs =>
    let next := significand * 10 + digitOf c
    if next ≤ maxSignificand then takeDigits next cs else (significand, cs.length + 1)

/-- Applies a power of ten to a significand, one rounding per step: powers up to 308 at
once, smaller ones 308 at a time.  No result if it would be infinite. -/
def scaleBy : Nat → Binary64 → Int → Option Binary64
  | 0, x, _ => some x
  | fuel + 1, x, e =>
    if e.natAbs ≤ 308 then
      let power := Binary64.ofNat (powerOfTen e.natAbs)
      if 0 ≤ e then
        let y := x.mul power
        if y.isInfinite then none else some y
      else some (x.div power)
    else if x.isZero then some x
    else if 0 ≤ e then none
    else scaleBy fuel (x.div (Binary64.ofNat (powerOfTen 308))) (e + 308)

/-- The real of a sign, a significand and a power of ten. -/
def realOf (negative : Bool) (significand : Nat) (e : Int) : Except Ending Document :=
  match scaleBy (e.natAbs / 308 + 1) (.ofNat significand) e with
  | some x => .ok (.real (if negative then -x else x))
  | none => .error .malformed

/-- The signed exponent behind an `e`, as a sign and digits. -/
def readExponent (cs : List Char) : Read Ending Int :=
  let (negative, body) := match cs with
    | '-' :: rest => (true, rest)
    | '+' :: rest => (false, rest)
    | rest => (false, rest)
  match splitDigits body with
  | ([], []) => .error .early
  | ([], _ :: _) => .error .malformed
  | (ds, rest) =>
    let n : Int := ds.foldl (fun acc c => acc * 10 + digitOf c) 0
    .ok (if negative then -n else n, rest)

/-- The number of a sign, a significand and a power of ten, an exponent that may follow
counted in.  An exponent past 31 bits makes a number zero or too large by itself. -/
def finishReal (negative : Bool) (significand : Nat) (e : Int) (cs : List Char) :
    Read Ending Document :=
  match cs with
  | [] => (realOf negative significand e).map (·, [])
  | c :: rest =>
    if c = 'e' ∨ c = 'E' then
      match readExponent rest with
      | .error x => .error x
      | .ok (n, rest') =>
        if n.natAbs < 0x80000000 then (realOf negative significand (e + n)).map (·, rest')
        else if significand ≠ 0 ∧ 0 < n then .error .malformed
        else (realOf negative 0 0).map (·, rest')
    else (realOf negative significand e).map (·, c :: rest)

/-- The number of a sign and the digits before the point, with `e` of them left over. -/
def finishNumber (negative : Bool) (significand : Nat) (dropped : Nat) (cs : List Char) :
    Read Ending Document :=
  match cs with
  | '.' :: rest =>
    match splitDigits rest with
    | ([], []) => .error .early
    | ([], _ :: _) => .error .malformed
    | (ds, rest') =>
      let (m, left) := takeDigits significand ds
      finishReal negative m (dropped - (ds.length - left : Nat)) rest'
  | _ =>
    if dropped = 0 ∧ ¬ (cs.head? = some 'e' ∨ cs.head? = some 'E') then
      if ¬ negative then .ok (.int significand, cs)
      else if significand ≠ 0 ∧ significand ≤ 0x8000000000000000 then
        .ok (.int (-significand), cs)
      else (realOf true significand 0).map (·, cs)
    else finishReal negative significand dropped cs

/-- A number behind its sign: no zero stands before another digit. -/
def readUnsigned (negative : Bool) (cs : List Char) : Read Ending Document :=
  match splitDigits cs with
  | ([], []) => .error .early
  | ([], _ :: _) => .error .malformed
  | ('0' :: _ :: _, _) => .error .malformed
  | (ds, rest) =>
    let (m, left) := takeDigits 0 ds
    finishNumber negative m left rest

/-- A number. -/
def readNumber : List Char → Read Ending Document
  | '-' :: rest => readUnsigned true rest
  | cs => readUnsigned false cs

/-! ### Strings -/

/-- How a text fails that has no four characters left for an escape: it ends early unless
those it has take four bytes. -/
def cutEscape (cs : List Char) : Ending :=
  if Utf8.width cs < 4 then .early else .malformed

/-- The rest of a string behind its opening quote, and the text after its closing quote. -/
def readString : List Char → Read Ending (List Char)
  | [] => .error .early
  | '"' :: rest => .ok ([], rest)
  | '\\' :: 'u' :: a :: b :: c :: d :: rest =>
    match Escaped.hexFour? a b c d with
    | none => .error .malformed
    | some n =>
      if Escaped.isLowSurrogate n then .error .malformed
      else if Escaped.isHighSurrogate n then
        match rest with
        | [] => .error .early
        | ['\\'] => .error .early
        | '\\' :: 'u' :: a' :: b' :: c' :: d' :: rest' =>
          match Escaped.hexFour? a' b' c' d' with
          | none => .error .malformed
          | some m =>
            if Escaped.isLowSurrogate m then
              (readString rest').map fun (s, r) => (Escaped.pairChar n m :: s, r)
            else .error .malformed
        | '\\' :: 'u' :: cut => .error (cutEscape cut)
        | _ :: _ => .error .malformed
      else (readString rest).map fun (s, r) => (Char.ofNat n :: s, r)
  | '\\' :: 'u' :: cut => .error (cutEscape cut)
  | ['\\'] => .error .early
  | '\\' :: c :: rest =>
    match Escaped.short? c with
    | some x => (readString rest).map fun (s, r) => (x :: s, r)
    | none => .error .malformed
  | c :: rest =>
    if c.toNat < 0x20 then .error .malformed
    else (readString rest).map fun (s, r) => (c :: s, r)

/-- A string behind its opening quote, as a text. -/
def readText (cs : List Char) : Read Ending String :=
  (readString cs).map fun (s, r) => (String.ofList s, r)

/-! ### Nested documents -/

/-- Adds an item before those that had been read. -/
def Failure.consItem (x : Document) : Failure → Failure
  | ⟨e, .array xs next⟩ => ⟨e, .array (x :: xs) next⟩
  | f => f

/-- Adds a member before those that had been read. -/
def Failure.consMember (key : String) (x : Document) : Failure → Failure
  | ⟨e, .object ms k next⟩ => ⟨e, .object ((key, x) :: ms) k next⟩
  | f => f

mutual

/-- A document at the front of a text, with `depth` levels of nesting left. -/
def readValue : Nat → Nat → List Char → Read Failure Document
  | 0, _, _ => .error ⟨.early, .scalar⟩
  | fuel + 1, depth, cs =>
    match skipBlanks cs with
    | [] => .error ⟨.early, .scalar⟩
    | 'n' :: rest => scalar ((expectWord ['u', 'l', 'l'] rest).map (Document.null, ·))
    | 't' :: rest => scalar ((expectWord ['r', 'u', 'e'] rest).map (Document.bool true, ·))
    | 'f' :: rest => scalar ((expectWord ['a', 'l', 's', 'e'] rest).map (Document.bool false, ·))
    | '"' :: rest => scalar ((readText rest).map fun (s, r) => (Document.string s, r))
    | '[' :: rest =>
      match depth with
      | 0 => .error ⟨.malformed, .array [] none⟩
      | depth + 1 =>
        match skipBlanks rest with
        | ']' :: rest' => .ok (.array [], rest')
        | rest' => (readItems fuel depth rest').map fun (xs, r) => (.array xs, r)
    | '\x7b' :: rest =>
      match depth with
      | 0 => .error ⟨.malformed, .object [] none none⟩
      | depth + 1 =>
        match skipBlanks rest with
        | '\x7d' :: rest' => .ok (.object [], rest')
        | rest' => (readMembers fuel depth rest').map fun (ms, r) => (.object ms, r)
    | c :: rest =>
      if c = '-' ∨ isDigit c then scalar (readNumber (c :: rest))
      else .error ⟨.malformed, .scalar⟩
where
  /-- The outcome of reading a value that is no array and no object. -/
  scalar : Read Ending Document → Read Failure Document
    | .ok r => .ok r
    | .error e => .error ⟨e, .scalar⟩

/-- The items of an array up to its closing bracket; there is at least one. -/
def readItems : Nat → Nat → List Char → Read Failure (List Document)
  | 0, _, _ => .error ⟨.early, .array [] none⟩
  | fuel + 1, depth, cs =>
    match readValue fuel depth cs with
    | .error f => .error ⟨f.ending, .array [] (skipBlanks cs).head?⟩
    | .ok (x, rest) =>
      match skipBlanks rest with
      | [] => .error ⟨.early, .array [x] none⟩
      | ']' :: rest' => .ok ([x], rest')
      | ',' :: rest' =>
        match skipBlanks rest' with
        | ']' :: _ => .error ⟨.malformed, .array [x] none⟩
        | rest'' =>
          match readItems fuel depth rest'' with
          | .ok (xs, r) => .ok (x :: xs, r)
          | .error f => .error (f.consItem x)
      | _ :: _ => .error ⟨.malformed, .array [x] none⟩

/-- The members of an object up to its closing brace; there is at least one. -/
def readMembers : Nat → Nat → List Char → Read Failure (List (String × Document))
  | 0, _, _ => .error ⟨.early, .object [] none none⟩
  | fuel + 1, depth, cs =>
    match cs with
    | [] => .error ⟨.early, .object [] none none⟩
    | '"' :: rest =>
      match readText rest with
      | .error e => .error ⟨e, .object [] none none⟩
      | .ok (key, rest) =>
        match skipBlanks rest with
        | [] => .error ⟨.early, .object [] key none⟩
        | ':' :: rest' =>
          match readValue fuel depth rest' with
          | .error f => .error ⟨f.ending, .object [] key (skipBlanks rest').head?⟩
          | .ok (x, rest) =>
            match skipBlanks rest with
            | [] => .error ⟨.early, .object [(key, x)] none none⟩
            | '\x7d' :: rest' => .ok ([(key, x)], rest')
            | ',' :: rest' =>
              match readMembers fuel depth (skipBlanks rest') with
              | .ok (ms, r) => .ok ((key, x) :: ms, r)
              | .error f => .error (f.consMember key x)
            | _ :: _ => .error ⟨.malformed, .object [(key, x)] none none⟩
        | _ :: _ => .error ⟨.malformed, .object [] key none⟩
    | _ :: _ => .error ⟨.malformed, .object [] none none⟩

end

/-- A document at the front of a text, and the text after it.  Each level of reading takes a
character at least every other time, which bounds the number of levels. -/
def read (nesting : Nat) (text : String) : Read Failure Document :=
  readValue (2 * text.length + 2) nesting text.toList

/-- The document a whole text holds. -/
def ofText? (nesting : Nat) (text : String) : Option Document :=
  match read nesting text with
  | .ok (d, rest) => if (skipBlanks rest).isEmpty then some d else none
  | .error _ => none

end Columnar.Document
