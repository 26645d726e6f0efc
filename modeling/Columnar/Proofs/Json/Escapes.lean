import Columnar.Proofs.Json.Places
import Columnar.Proofs.Json.Quotation
import Columnar.Proofs.Utf8Valid

/-!
# What strings denote

Between its quotes a string denotes a text: an escape is a backslash and one of eight letters, a
`u` and four digits, or two of these that make a pair of surrogates, and any other character is
itself.  The scanner passes over two bytes at each backslash, the decoder over a whole escape.
They stay together, since no escape has a backslash in it but the one in the middle of a pair,
which has a `u` behind it; so the decoder never comes to a backslash with nothing behind it.

## Main definitions

* `Escape`, `BadEscape` — an escape and its character, and what is wrong where none starts.
* `Denotes` — the text that characters between two quotes denote.
* `IsInvalidAt`, `IsFirstBad` — the two ways in which a string denotes nothing.

## Main results

* `escape_eq_ok_iff` — the escapes that are read are those of the grammar.
* `readsTo_unescape` — what is read, and what it stops at.
* `Denotes.behind` — **the scanner and the decoder stay together.**
* `decode_eq_ok_iff`, `decode_eq_error_iff` — what bytes between quotes decode to, and why not.
* `scanned_string_decodes` — **a string token decodes by the grammar of strings.**
-/

namespace Columnar.StringContent

/-! ### The grammar -/

/-- The letters behind a backslash, and the characters that they stand for. -/
def letterEscapes : List (Char × Char) :=
  [('"', '"'), ('\\', '\\'), ('/', '/'), ('b', '\x08'), ('f', '\x0c'), ('n', '\n'), ('r', '\r'),
    ('t', '\t')]

/-- A hexadecimal digit in either case, and its value. -/
def IsHexDigit (c : Char) (k : Nat) : Prop :=
  k < 16 ∧ (c = Nat.digitChar k ∨ c = (Nat.digitChar k).toUpper)

/-- Four hexadecimal digits, and their value. -/
inductive HexValue : List Char → Nat → Prop
  /-- The first digit counts most. -/
  | digits {a b c d : Char} {i j k l : Nat} (ha : IsHexDigit a i) (hb : IsHexDigit b j)
      (hc : IsHexDigit c k) (hd : IsHexDigit d l) :
      HexValue [a, b, c, d] (((i * 16 + j) * 16 + k) * 16 + l)

/-- What follows the backslash of an escape, and the character that it stands for. -/
inductive Escape : List Char → Char → Prop
  /-- One of the eight letters. -/
  | letter {e x : Char} (h : (e, x) ∈ letterEscapes) : Escape [e] x
  /-- The code of a character, which no surrogate is. -/
  | code {ds : List Char} {n : Nat} {x : Char} (h : HexValue ds n)
      (hn : n < 0xd800 ∨ 0xdfff < n) (hx : x.toNat = n) : Escape ('u' :: ds) x
  /-- The codes of a high surrogate and a low one, which make a character past U+FFFF. -/
  | pair {ds ds' : List Char} {n m : Nat} {x : Char} (h : HexValue ds n)
      (hn : 0xd800 ≤ n ∧ n < 0xdc00) (h' : HexValue ds' m) (hm : 0xdc00 ≤ m ∧ m < 0xe000)
      (hx : x.toNat = 0x10000 + (n - 0xd800) * 0x400 + (m - 0xdc00)) :
      Escape ('u' :: (ds ++ '\\' :: 'u' :: ds')) x

/-- Characters between two quotes, and the text that they denote. -/
inductive Denotes : List Char → List Char → Prop
  /-- Nothing is nothing. -/
  | nil : Denotes [] []
  /-- A character that is no backslash is itself. -/
  | plain {c : Char} {cs xs : List Char} (hc : c ≠ '\\') (h : Denotes cs xs) :
      Denotes (c :: cs) (c :: xs)
  /-- An escape is its character. -/
  | escape {e cs xs : List Char} {x : Char} (he : Escape e x) (h : Denotes cs xs) :
      Denotes ('\\' :: (e ++ cs)) (x :: xs)

/-- What is wrong with the characters behind a backslash that starts no escape, and how many bytes
are shown as faulty: the backslash and the letter, or the backslash and at most twelve bytes. -/
inductive BadEscape : List Char → ScanCause → Nat → Prop
  /-- A character that is no letter of an escape. -/
  | letter {c : Char} {rest : List Char} (h : ∀ x, (c, x) ∉ letterEscapes) (hu : c ≠ 'u') :
      BadEscape (c :: rest) (.invalidEscape c) (1 + c.utf8Size)
  /-- A `u` behind which the codes do not follow. -/
  | code {rest : List Char} (h : ∀ e x, Escape e x → ¬ e <+: 'u' :: rest) :
      BadEscape ('u' :: rest) .invalidUnicodeEscape
        (min (Utf8.encode ('u' :: rest)).length 12 + 1)

/-- The error of bytes that are not encoded text: it points behind the longest front that is. -/
def IsInvalidAt (offset : Nat) (content : List UInt8) (e : ScanError) : Prop :=
  (¬ ∃ cs, content = Utf8.encode cs) ∧
    ∃ front, Utf8.encode front <+: content ∧
      (∀ cs, Utf8.encode cs <+: content →
        (Utf8.encode cs).length ≤ (Utf8.encode front).length) ∧
      e = ⟨.invalidUtf8, ⟨offset + (Utf8.encode front).length, 1⟩⟩

/-- The error of the first backslash, from left to right, that starts no escape: it points at this
backslash. -/
def IsFirstBad (offset : Nat) (content : List UInt8) (e : ScanError) : Prop :=
  ∃ front done behind cause length, content = Utf8.encode (front ++ '\\' :: behind) ∧
    Denotes front done ∧ BadEscape behind cause length ∧
    e = ⟨cause, ⟨offset + (Utf8.encode front).length, length⟩⟩

/-! ### Digits and letters -/

/-- A character between two others, by its distance from the first. -/
theorem exists_ofNat {a b c : Char} (h : a ≤ c ∧ c ≤ b) :
    ∃ k ≤ b.toNat - a.toNat, c.toNat = a.toNat + k ∧ c = Char.ofNat (a.toNat + k) := by
  have hlow : a.toNat ≤ c.toNat := h.1
  have hhigh : c.toNat ≤ b.toNat := h.2
  refine ⟨c.toNat - a.toNat, by omega, by omega, ?_⟩
  rw [Nat.add_sub_cancel' hlow, Char.ofNat_toNat]

theorem hexDigit?_eq_some_iff {c : Char} {k : Nat} :
    Escaped.hexDigit? c = some k ↔ IsHexDigit c k := by
  constructor
  · intro h
    unfold Escaped.hexDigit? at h
    split_ifs at h with hdigit hlower hupper
    · obtain ⟨i, hi, hc, rfl⟩ := exists_ofNat hdigit
      have hdigits : ∀ i ≤ 9, IsHexDigit (Char.ofNat (48 + i)) i := by
        unfold IsHexDigit
        decide
      rw [hc, show '0'.toNat + i - 48 = i from Nat.add_sub_cancel_left 48 i] at h
      cases h
      exact hdigits _ hi
    · obtain ⟨i, hi, hc, rfl⟩ := exists_ofNat hlower
      have hdigits : ∀ i ≤ 5, IsHexDigit (Char.ofNat (97 + i)) (97 + i - 87) := by
        unfold IsHexDigit
        decide
      rw [hc] at h
      cases h
      exact hdigits _ hi
    · obtain ⟨i, hi, hc, rfl⟩ := exists_ofNat hupper
      have hdigits : ∀ i ≤ 5, IsHexDigit (Char.ofNat (65 + i)) (65 + i - 55) := by
        unfold IsHexDigit
        decide
      rw [hc] at h
      cases h
      exact hdigits _ hi
  · rintro ⟨hk, hc⟩
    have hdigits : ∀ k < 16, Escaped.hexDigit? (Nat.digitChar k) = some k ∧
        Escaped.hexDigit? (Nat.digitChar k).toUpper = some k := by decide
    rcases hc with rfl | rfl
    · exact (hdigits k hk).1
    · exact (hdigits k hk).2

theorem hexFour?_eq_some_iff {a b c d : Char} {n : Nat} :
    Escaped.hexFour? a b c d = some n ↔ HexValue [a, b, c, d] n := by
  constructor
  · intro h
    simp only [Escaped.hexFour?, Option.bind_eq_bind, Option.bind_eq_some_iff,
      hexDigit?_eq_some_iff] at h
    obtain ⟨i, ha, j, hb, k, hc, l, hd, hn⟩ := h
    cases hn
    exact .digits ha hb hc hd
  · intro h
    cases h with
    | digits ha hb hc hd =>
      rw [← hexDigit?_eq_some_iff] at ha hb hc hd
      rw [Escaped.hexFour?, ha, hb, hc, hd]
      rfl

theorem short?_eq_some_iff {e x : Char} :
    Escaped.short? e = some x ↔ (e, x) ∈ letterEscapes := by
  constructor
  · intro h
    unfold Escaped.short? at h
    split_ifs at h with hself
    · cases h
      rcases hself with rfl | rfl | rfl <;> decide
    all_goals
      subst e
      cases h
      decide
  · intro h
    have hletters : ∀ p ∈ letterEscapes, Escaped.short? p.1 = some p.2 := by decide
    exact hletters _ h

theorem HexValue.lt {ds : List Char} {n : Nat} (h : HexValue ds n) : n < 0x10000 := by
  cases h with
  | digits ha hb hc hd =>
    have hi := ha.1
    have hj := hb.1
    have hk := hc.1
    have hl := hd.1
    omega

/-- The letters behind a backslash are characters of one byte. -/
theorem toNat_lt_of_mem_letterEscapes {e x : Char} (h : (e, x) ∈ letterEscapes) :
    e.toNat < 0x80 := by
  have hletters : ∀ p ∈ letterEscapes, p.1.toNat < 0x80 := by decide
  exact hletters _ h

/-- Digits are characters of one byte, and no backslash. -/
theorem IsHexDigit.ascii {c : Char} {k : Nat} (h : IsHexDigit c k) :
    c.toNat < 0x80 ∧ c ≠ '\\' := by
  obtain ⟨hk, hc⟩ := h
  have hdigits : ∀ k < 16, ((Nat.digitChar k).toNat < 0x80 ∧ Nat.digitChar k ≠ '\\') ∧
      (Nat.digitChar k).toUpper.toNat < 0x80 ∧ (Nat.digitChar k).toUpper ≠ '\\' := by decide
  rcases hc with rfl | rfl
  · exact (hdigits k hk).1
  · exact (hdigits k hk).2

theorem HexValue.ascii {ds : List Char} {n : Nat} (h : HexValue ds n) :
    ∀ c ∈ ds, c.toNat < 0x80 ∧ c ≠ '\\' := by
  cases h with
  | digits ha hb hc hd => simpa using ⟨ha.ascii, hb.ascii, hc.ascii, hd.ascii⟩

/-! ### Escapes that are read -/

theorem isHighSurrogate_eq_true_iff {n : Nat} :
    Escaped.isHighSurrogate n = true ↔ 0xd800 ≤ n ∧ n < 0xdc00 :=
  decide_eq_true_iff

theorem isLowSurrogate_eq_true_iff {n : Nat} :
    Escaped.isLowSurrogate n = true ↔ 0xdc00 ≤ n ∧ n < 0xe000 :=
  decide_eq_true_iff

/-- What is read behind the `u` of an escape follows the grammar. -/
theorem exists_of_codeEscape? {behind : List Char} {x : Char} {width : Nat}
    (h : codeEscape? behind = some (x, width)) :
    ∃ e rest, behind = e ++ rest ∧ e.length = width ∧ Escape ('u' :: e) x := by
  unfold codeEscape? at h
  split at h
  case h_2 => cases h
  case h_1 a b c d rest =>
    split at h
    case h_1 => cases h
    case h_2 n hn =>
      have hvalue := hexFour?_eq_some_iff.mp hn
      have hlt := hvalue.lt
      split at h
      case isTrue hhigh =>
        rw [isHighSurrogate_eq_true_iff] at hhigh
        split at h
        case h_2 => cases h
        case h_1 a' b' c' d' rest' =>
          split at h
          case h_1 => cases h
          case h_2 m hm =>
            split at h
            case isFalse => cases h
            case isTrue hlow =>
              rw [isLowSurrogate_eq_true_iff] at hlow
              obtain ⟨rfl, rfl⟩ := Prod.mk.inj (Option.some.inj h)
              refine ⟨[a, b, c, d, '\\', 'u', a', b', c', d'], rest', rfl, rfl, ?_⟩
              exact .pair hvalue hhigh (hexFour?_eq_some_iff.mp hm) hlow
                (Utf8.toNat_charOfNat (by omega))
      case isFalse hhigh =>
        rw [isHighSurrogate_eq_true_iff] at hhigh
        split at h
        case isTrue => cases h
        case isFalse hlow =>
          rw [isLowSurrogate_eq_true_iff] at hlow
          obtain ⟨rfl, rfl⟩ := Prod.mk.inj (Option.some.inj h)
          exact ⟨[a, b, c, d], rest, rfl, rfl,
            .code hvalue (by omega) (Utf8.toNat_charOfNat (by omega))⟩

/-- Behind a `u` there is a code. -/
theorem escape_of_some {rest : List Char} {x : Char} {width : Nat}
    (h : codeEscape? rest = some (x, width)) : escape ('u' :: rest) = .ok (x, width + 1) := by
  have hshort : Escaped.short? 'u' = none := rfl
  rw [escape, hshort]
  simp only [if_true, h]

/-- Behind a `u` there is no code. -/
theorem escape_of_none {rest : List Char} (h : codeEscape? rest = none) :
    escape ('u' :: rest) = .error .invalidUnicodeEscape := by
  have hshort : Escaped.short? 'u' = none := rfl
  rw [escape, hshort]
  simp only [if_true, h]

/-- Behind a backslash there is a character that is no letter of an escape. -/
theorem escape_of_letter {c : Char} {rest : List Char} (h : ∀ x, (c, x) ∉ letterEscapes)
    (hu : c ≠ 'u') : escape (c :: rest) = .error (.invalidEscape c) := by
  have hshort : Escaped.short? c = none := by
    cases hshort : Escaped.short? c with
    | none => rfl
    | some x => exact absurd (short?_eq_some_iff.mp hshort) (h x)
  rw [escape, hshort]
  simp only [if_neg hu]

/-- An escape is read, whatever follows it. -/
theorem Escape.escape_append {e : List Char} {x : Char} (h : Escape e x) (rest : List Char) :
    StringContent.escape (e ++ rest) = .ok (x, e.length) := by
  cases h with
  | letter h =>
    rw [List.singleton_append, StringContent.escape, short?_eq_some_iff.mpr h]
    rfl
  | @code ds n x h hn hx =>
    have hchar : Char.ofNat n = x := by rw [← hx, Char.ofNat_toNat]
    cases h with
    | @digits a b c d i j k l ha hb hc hd =>
      have hfour := hexFour?_eq_some_iff.mpr (.digits ha hb hc hd)
      generalize ((i * 16 + j) * 16 + k) * 16 + l = n at *
      have hhigh : Escaped.isHighSurrogate n = false := decide_eq_false (by omega)
      have hlow : Escaped.isLowSurrogate n = false := decide_eq_false (by omega)
      have hcode : codeEscape? (a :: b :: c :: d :: rest) = some (x, 4) := by
        rw [codeEscape?, hfour]
        simp only [hhigh, hlow, Bool.false_eq_true, if_false, hchar]
      exact escape_of_some hcode
  | @pair ds ds' n m x h hn h' hm hx =>
    have hchar : Escaped.pairChar n m = x := by rw [Escaped.pairChar, ← hx, Char.ofNat_toNat]
    cases h with
    | @digits a b c d i j k l ha hb hc hd =>
      cases h' with
      | @digits a' b' c' d' i' j' k' l' ha' hb' hc' hd' =>
        have hfour := hexFour?_eq_some_iff.mpr (.digits ha hb hc hd)
        have hfour' := hexFour?_eq_some_iff.mpr (.digits ha' hb' hc' hd')
        generalize ((i * 16 + j) * 16 + k) * 16 + l = n at *
        generalize ((i' * 16 + j') * 16 + k') * 16 + l' = m at *
        have hcode : codeEscape? (a :: b :: c :: d :: '\\' :: 'u' :: a' :: b' :: c' :: d' :: rest)
            = some (x, 10) := by
          rw [codeEscape?, hfour]
          simp only [isHighSurrogate_eq_true_iff.mpr hn, if_true, hfour',
            isLowSurrogate_eq_true_iff.mpr hm, hchar]
        exact escape_of_some hcode

/-- The escapes that are read are those of the grammar. -/
theorem escape_eq_ok_iff {behind : List Char} {x : Char} {width : Nat} :
    escape behind = .ok (x, width) ↔
      ∃ e rest, behind = e ++ rest ∧ e.length = width ∧ Escape e x := by
  constructor
  · intro h
    cases behind with
    | nil => cases h
    | cons c rest =>
      by_cases hu : c = 'u'
      · subst hu
        cases hcode : codeEscape? rest with
        | none =>
          rw [escape_of_none hcode] at h
          cases h
        | some p =>
          rw [escape_of_some hcode] at h
          cases h
          obtain ⟨e, after, rfl, hlen, he⟩ := exists_of_codeEscape? hcode
          exact ⟨'u' :: e, after, rfl, by rw [List.length_cons, hlen], he⟩
      · rw [escape] at h
        cases hshort : Escaped.short? c with
        | none =>
          rw [hshort] at h
          simp only [if_neg hu] at h
          cases h
        | some y =>
          rw [hshort] at h
          cases h
          exact ⟨[c], rest, rfl, rfl, .letter (short?_eq_some_iff.mp hshort)⟩
  · rintro ⟨e, rest, rfl, rfl, he⟩
    exact he.escape_append rest

/-- How many bytes are shown as faulty behind a `u`. -/
theorem faultLength_code (behind : List Char) :
    faultLength .invalidUnicodeEscape behind = min (Utf8.encode behind).length 12 + 1 := by
  rw [Utf8.length_encode]
  rfl

/-- Where no escape is read, none starts, unless there is nothing behind the backslash. -/
theorem bad_of_escape_eq_error {behind : List Char} {cause : ScanCause}
    (h : escape behind = .error cause) (hne : behind ≠ []) :
    BadEscape behind cause (faultLength cause behind) := by
  cases behind with
  | nil => exact absurd rfl hne
  | cons c rest =>
    have hnot : ∀ e x, Escape e x → ¬ e <+: c :: rest := by
      rintro e x he ⟨after, heq⟩
      rw [← heq, he.escape_append] at h
      cases h
    by_cases hu : c = 'u'
    · subst hu
      cases hcode : codeEscape? rest with
      | some p =>
        rw [escape_of_some hcode] at h
        cases h
      | none =>
        rw [escape_of_none hcode] at h
        cases h
        rw [faultLength_code]
        exact .code hnot
    · have hletter : ∀ x, (c, x) ∉ letterEscapes := fun x hx => hnot [c] x (.letter hx) ⟨rest, rfl⟩
      rw [escape_of_letter hletter hu] at h
      cases h
      exact .letter hletter hu

/-- A bad escape is an error, and so much is shown as faulty. -/
theorem BadEscape.escape_eq {behind : List Char} {cause : ScanCause} {length : Nat}
    (h : BadEscape behind cause length) :
    escape behind = .error cause ∧ faultLength cause behind = length := by
  cases h with
  | letter h hu => exact ⟨escape_of_letter h hu, rfl⟩
  | @code rest h =>
    refine ⟨?_, faultLength_code _⟩
    cases hcode : codeEscape? rest with
    | none => exact escape_of_none hcode
    | some p =>
      obtain ⟨x, width⟩ := p
      obtain ⟨e, after, rfl, -, he⟩ := exists_of_codeEscape? hcode
      exact absurd ⟨after, rfl⟩ (h _ _ he)

/-! ### Reading from left to right -/

/-- The characters of an escape take a byte each. -/
theorem Escape.ascii {e : List Char} {x : Char} (h : Escape e x) : ∀ c ∈ e, c.toNat < 0x80 := by
  have hu : ('u').toNat < 0x80 := by decide
  cases h with
  | @letter e x h =>
    simpa using toNat_lt_of_mem_letterEscapes h
  | code h hn hx =>
    intro c hc
    rcases List.mem_cons.mp hc with rfl | hc
    · exact hu
    · exact (h.ascii c hc).1
  | pair h hn h' hm hx =>
    intro c hc
    simp only [List.mem_cons, List.mem_append] at hc
    rcases hc with rfl | hc | rfl | rfl | hc
    · exact hu
    · exact (h.ascii c hc).1
    · decide
    · exact hu
    · exact (h'.ascii c hc).1

theorem length_encode_ascii {cs : List Char} (h : ∀ c ∈ cs, c.toNat < 0x80) :
    (Utf8.encode cs).length = cs.length := by
  induction cs with
  | nil => rfl
  | cons c cs ih =>
    have hrest := ih fun d hd => h d (List.mem_cons_of_mem _ hd)
    rw [Utf8.encode_cons, Utf8.encodeChar_ascii (h c List.mem_cons_self), List.length_append, hrest,
      List.length_singleton, List.length_cons, Nat.add_comm]

/-- The characters of an escape take a byte each, so counting bytes behind a backslash comes to
the same place as counting characters. -/
theorem encode_drop_of_escape {behind : List Char} {x : Char} {width : Nat}
    (h : escape behind = .ok (x, width)) :
    (Utf8.encode behind).drop width = Utf8.encode (behind.drop width) := by
  obtain ⟨e, rest, rfl, rfl, he⟩ := escape_eq_ok_iff.mp h
  rw [List.drop_left, Utf8.encode_append]
  exact List.drop_left' (length_encode_ascii he.ascii)

/-- What is read up to a place is read whatever follows. -/
theorem Denotes.unescape_append {front done : List Char} (h : Denotes front done)
    (rest : List Char) (offset : Nat) : unescape offset (front ++ rest)
      = (unescape (offset + (Utf8.encode front).length) rest).map (done ++ ·) := by
  induction h generalizing offset with
  | nil =>
    show unescape offset rest = (unescape (offset + 0) rest).map id
    rw [Nat.add_zero]
    cases unescape offset rest <;> rfl
  | @plain c cs xs hc _ ih =>
    rw [List.cons_append, unescape_cons_of_ne hc, ih, Utf8.encode_cons, List.length_append,
      String.length_utf8EncodeChar, Nat.add_assoc]
    cases unescape (offset + (c.utf8Size + (Utf8.encode cs).length)) rest <;> rfl
  | @escape e cs xs x he _ ih =>
    have hback : (String.utf8EncodeChar '\\').length = 1 := rfl
    rw [List.cons_append, List.append_assoc, ← List.cons_append,
      unescape_escape (he.escape_append (cs ++ rest)), ih, Utf8.encode_cons, Utf8.encode_append,
      List.length_append, List.length_append, length_encode_ascii he.ascii, hback,
      show offset + 1 + e.length + (Utf8.encode cs).length
        = offset + (1 + (e.length + (Utf8.encode cs).length)) by omega]
    cases unescape (offset + (1 + (e.length + (Utf8.encode cs).length))) rest <;> rfl

/-- The text that characters denote is read. -/
theorem Denotes.unescape_eq {cs xs : List Char} (h : Denotes cs xs) (offset : Nat) :
    unescape offset cs = .ok xs := by
  have hread := h.unescape_append [] offset
  rw [List.append_nil, unescape_nil] at hread
  rw [hread]
  show Except.ok (xs ++ []) = _
  rw [List.append_nil]

/-- What the reading of characters comes to: the text that they denote, or the fault of the first
backslash that starts no escape. -/
inductive ReadsTo (offset : Nat) (cs : List Char) : Except ScanError (List Char) → Prop
  /-- All characters are read. -/
  | all {xs : List Char} (h : Denotes cs xs) : ReadsTo offset cs (.ok xs)
  /-- Reading stops at a backslash. -/
  | bad {front done behind : List Char} {cause : ScanCause} (hcs : cs = front ++ '\\' :: behind)
      (hdone : Denotes front done) (hbad : escape behind = .error cause) :
      ReadsTo offset cs
        (.error ⟨cause, ⟨offset + (Utf8.encode front).length, faultLength cause behind⟩⟩)

/-- What stands for a character, in front of what is read. -/
theorem ReadsTo.append {offset : Nat} {front rest : List Char} {x : Char}
    {r : Except ScanError (List Char)} (h : ReadsTo (offset + (Utf8.encode front).length) rest r)
    (hfront : ∀ {cs xs : List Char}, Denotes cs xs → Denotes (front ++ cs) (x :: xs)) :
    ReadsTo offset (front ++ rest) (r.map (x :: ·)) := by
  cases h with
  | all h => exact .all (hfront h)
  | @bad front' done behind cause hcs hdone hbad =>
    subst hcs
    show ReadsTo _ _ (.error _)
    rw [Nat.add_assoc, ← List.length_append, ← Utf8.encode_append]
    exact .bad (by rw [List.append_assoc]) (hfront hdone) hbad

/-- **What is read is denoted, and reading stops at the first backslash that starts no escape.** -/
theorem readsTo_unescape (offset : Nat) (cs : List Char) :
    ReadsTo offset cs (unescape offset cs) := by
  fun_induction unescape offset cs with
  | case1 offset => exact .all .nil
  | case2 offset rest x width hescape ih =>
    obtain ⟨e, after, rfl, rfl, he⟩ := escape_eq_ok_iff.mp hescape
    have hlen : offset + 1 + e.length = offset + (Utf8.encode ('\\' :: e)).length := by
      have hback : (String.utf8EncodeChar '\\').length = 1 := rfl
      rw [Utf8.encode_cons, List.length_append, length_encode_ascii he.ascii, hback, Nat.add_assoc]
    rw [List.drop_left, hlen] at ih ⊢
    have hfront : ∀ {cs xs : List Char}, Denotes cs xs → Denotes ('\\' :: e ++ cs) (x :: xs) :=
      fun h => .escape he h
    exact ih.append hfront
  | case3 offset rest cause hescape =>
    have hbad : ReadsTo offset ('\\' :: rest)
        (.error ⟨cause, ⟨offset + (Utf8.encode []).length, faultLength cause rest⟩⟩) :=
      .bad rfl .nil hescape
    exact hbad
  | case4 offset c rest hc ih =>
    have hlen : offset + c.utf8Size = offset + (Utf8.encode [c]).length := by
      rw [Utf8.encode_cons, List.length_append, String.length_utf8EncodeChar]
      rfl
    rw [hlen] at ih ⊢
    have hfront : ∀ {cs xs : List Char}, Denotes cs xs → Denotes ([c] ++ cs) (c :: xs) :=
      fun h => .plain hc h
    exact ih.append hfront

end Columnar.StringContent

namespace Columnar

/-! ### The scanner and the decoder stay together -/

/-- A backslash is a byte of no other character. -/
theorem backslash_mem_encodeChar {c : Char} (h : Window.backslash ∈ String.utf8EncodeChar c) :
    c = '\\' := by
  by_contra hne
  by_cases hc : c.toNat < 0x80
  · rw [Utf8.encodeChar_ascii hc, List.mem_singleton] at h
    have hn := Utf8.toNat_ofNat_of_lt (n := c.toNat) (by omega)
    rw [← h] at hn
    exact hne (Char.toNat_inj.mp hn.symm)
  · have hplain : Escaped.IsPlain c := by
      refine ⟨?_, hne, by omega⟩
      rintro rfl
      exact hc (by decide)
    exact (plain_encodeChar hplain _ h).2.1 rfl

theorem backslash_mem_encode_iff {cs : List Char} :
    Window.backslash ∈ Utf8.encode cs ↔ '\\' ∈ cs := by
  constructor
  · intro h
    obtain ⟨c, hc, hb⟩ := List.mem_flatMap.mp h
    rwa [backslash_mem_encodeChar hb] at hc
  · intro h
    exact List.mem_flatMap.mpr ⟨_, h, List.mem_singleton.mpr rfl⟩

namespace StringBody

variable {content front rest : List UInt8} {hasEscapes : Bool}

/-- The flag says whether there is a backslash. -/
theorem hasEscapes_iff (h : StringBody content hasEscapes) :
    hasEscapes = true ↔ Window.backslash ∈ content := by
  induction h with
  | nil => simp
  | plain _ hb _ _ ih => rw [ih, List.mem_cons, or_iff_right hb.symm]
  | escaped => simp

/-- Behind bytes without a backslash the scanner goes on. -/
theorem behind_plain (hfront : Window.backslash ∉ front)
    (h : StringBody (front ++ rest) hasEscapes) : ∃ e, StringBody rest e := by
  induction front generalizing hasEscapes with
  | nil => exact ⟨hasEscapes, h⟩
  | cons b front ih =>
    rw [List.mem_cons, not_or] at hfront
    obtain ⟨hb, hfront⟩ := hfront
    rw [List.cons_append] at h
    generalize hbytes : front ++ rest = bytes at h
    cases h with
    | plain _ _ _ h => exact ih hfront (hbytes ▸ h)
    | escaped => exact absurd rfl hb

/-- Behind a backslash and a byte the scanner goes on. -/
theorem behind_escaped {b : UInt8} (h : StringBody (Window.backslash :: b :: rest) hasEscapes) :
    ∃ e, StringBody rest e := by
  cases h with
  | plain _ hb => exact absurd rfl hb
  | escaped h => exact ⟨_, h⟩

/-- There is a byte behind a backslash. -/
theorem ne_singleton : ¬ StringBody [Window.backslash] hasEscapes := by
  intro h
  cases h with
  | plain _ hb => exact hb rfl

end StringBody

namespace StringContent

theorem HexValue.backslash_not_mem {ds : List Char} {n : Nat} (h : HexValue ds n) :
    Window.backslash ∉ Utf8.encode ds := by
  rw [backslash_mem_encode_iff]
  intro hmem
  exact (h.ascii _ hmem).2 rfl

/-- Behind an escape the scanner goes on: it has passed over a backslash with a byte once, or twice
if the escape is a pair. -/
theorem Escape.behind {e : List Char} {x : Char} (he : Escape e x) {rest : List UInt8}
    {hasEscapes : Bool} (h : StringBody (Utf8.encode ('\\' :: e) ++ rest) hasEscapes) :
    ∃ e', StringBody rest e' := by
  cases he with
  | @letter e x hletter =>
    rw [Utf8.encode_cons, Utf8.encode_cons,
      Utf8.encodeChar_ascii (toNat_lt_of_mem_letterEscapes hletter)] at h
    exact StringBody.behind_escaped h
  | @code ds n x hds _ _ =>
    have hu : StringBody (Window.backslash :: 0x75 :: (Utf8.encode ds ++ rest)) hasEscapes := h
    obtain ⟨_, hbehind⟩ := StringBody.behind_escaped hu
    exact StringBody.behind_plain hds.backslash_not_mem hbehind
  | @pair ds ds' n m x hds _ hds' _ _ =>
    have hu : StringBody (Window.backslash :: 0x75 ::
        (Utf8.encode (ds ++ '\\' :: 'u' :: ds') ++ rest)) hasEscapes := h
    obtain ⟨_, hbehind⟩ := StringBody.behind_escaped hu
    rw [Utf8.encode_append, List.append_assoc] at hbehind
    obtain ⟨e', hlow⟩ := StringBody.behind_plain hds.backslash_not_mem hbehind
    have hu' : StringBody (Window.backslash :: 0x75 :: (Utf8.encode ds' ++ rest)) e' := hlow
    obtain ⟨_, hbehind'⟩ := StringBody.behind_escaped hu'
    exact StringBody.behind_plain hds'.backslash_not_mem hbehind'

/-- **The scanner and the decoder stay together**: behind what the decoder has read, the scanner is
between two of its steps. -/
theorem Denotes.behind {front done : List Char} (hfront : Denotes front done) {rest : List UInt8}
    {hasEscapes : Bool} (h : StringBody (Utf8.encode front ++ rest) hasEscapes) :
    ∃ e, StringBody rest e := by
  induction hfront generalizing hasEscapes with
  | nil => exact ⟨hasEscapes, h⟩
  | @plain c cs xs hc _ ih =>
    have hplain : Window.backslash ∉ String.utf8EncodeChar c := fun hmem =>
      hc (backslash_mem_encodeChar hmem)
    rw [Utf8.encode_cons, List.append_assoc] at h
    obtain ⟨_, hbehind⟩ := StringBody.behind_plain hplain h
    exact ih hbehind
  | @escape e cs xs x he _ ih =>
    rw [← List.cons_append, Utf8.encode_append, List.append_assoc] at h
    obtain ⟨_, hbehind⟩ := he.behind h
    exact ih hbehind

/-! ### What bytes between quotes decode to -/

section

variable {content : List UInt8} {hasEscapes : Bool} {offset : Nat}

/-- Characters without a backslash denote themselves. -/
theorem denotes_self {cs : List Char} (h : '\\' ∉ cs) : Denotes cs cs := by
  induction cs with
  | nil => exact .nil
  | cons c cs ih =>
    rw [List.mem_cons, not_or] at h
    obtain ⟨hc, hcs⟩ := h
    exact .plain (Ne.symm hc) (ih hcs)

/-- Encoded text decodes to what its characters are read as: where the flag lets the decoder take
them as they are, they denote themselves. -/
theorem decode_encode {cs : List Char} (h : StringBody (Utf8.encode cs) hasEscapes) :
    decode offset (Utf8.encode cs) hasEscapes = (unescape offset cs).map String.ofList := by
  rw [decode, Utf8.decode?_encode]
  cases hasEscapes with
  | true => rfl
  | false =>
    have hnone : '\\' ∉ cs := by
      rw [← backslash_mem_encode_iff, ← h.hasEscapes_iff]
      decide
    rw [(denotes_self hnone).unescape_eq]
    rfl

/-- **What bytes between quotes decode to** is what the characters denote that they encode. -/
theorem decode_eq_ok_iff (h : StringBody content hasEscapes) {s : String} :
    decode offset content hasEscapes = .ok s ↔
      ∃ cs, content = Utf8.encode cs ∧ Denotes cs s.toList := by
  constructor
  · intro hdecode
    cases hcs : Utf8.decode? content with
    | none =>
      rw [decode, hcs] at hdecode
      cases hdecode
    | some cs =>
      obtain rfl := Utf8.decode?_eq_some_iff.mp hcs
      rw [decode_encode h] at hdecode
      have hread := readsTo_unescape offset cs
      generalize unescape offset cs = r at hdecode hread
      cases hread with
      | bad => cases hdecode
      | @all xs hdenotes =>
        cases hdecode
        refine ⟨cs, rfl, ?_⟩
        rwa [String.toList_ofList]
  · rintro ⟨cs, rfl, hdenotes⟩
    rw [decode_encode h, hdenotes.unescape_eq]
    show Except.ok (String.ofList s.toList) = _
    rw [String.ofList_toList]

/-- Bytes that are not encoded text are invalid behind their valid front. -/
theorem isInvalidAt_iff {e : ScanError} (h : Utf8.decode? content = none) :
    IsInvalidAt offset content e ↔
      e = ⟨.invalidUtf8, ⟨offset + Utf8.validLength content, 1⟩⟩ := by
  obtain ⟨cs, hcs⟩ := Utf8.exists_encode_eq_take content
  have hpre : Utf8.encode cs <+: content := by
    rw [← hcs]
    exact List.take_prefix _ _
  have hlen : (Utf8.encode cs).length = Utf8.validLength content := by
    rw [← hcs, List.length_take]
    exact Nat.min_eq_left (Nat.le_of_lt (Utf8.validLength_lt h))
  constructor
  · rintro ⟨-, front, hfront, hmax, rfl⟩
    have hle := Utf8.length_encode_le hfront
    have hge := hmax cs hpre
    rw [show (Utf8.encode front).length = Utf8.validLength content by omega]
  · rintro rfl
    refine ⟨?_, cs, hpre, fun cs' hcs' => ?_, by rw [hlen]⟩
    · rintro ⟨cs', rfl⟩
      rw [Utf8.decode?_encode] at h
      cases h
    · rw [hlen]
      exact Utf8.length_encode_le hcs'

/-- **Why bytes between quotes do not decode**: they are not encoded text, or else some backslash
starts no escape, and the first one of these is at fault. -/
theorem decode_eq_error_iff (h : StringBody content hasEscapes) {e : ScanError} :
    decode offset content hasEscapes = .error e ↔
      IsInvalidAt offset content e ∨ IsFirstBad offset content e := by
  cases hcs : Utf8.decode? content with
  | none =>
    have hnot : ¬ IsFirstBad offset content e := by
      rintro ⟨front, done, behind, cause, length, rfl, -⟩
      rw [Utf8.decode?_encode] at hcs
      cases hcs
    rw [isInvalidAt_iff hcs, or_iff_left hnot, decode, hcs]
    exact ⟨fun h => (Except.error.inj h).symm, fun h => by rw [h]⟩
  | some cs =>
    obtain rfl := Utf8.decode?_eq_some_iff.mp hcs
    have hnot : ¬ IsInvalidAt offset (Utf8.encode cs) e := fun hinvalid => hinvalid.1 ⟨cs, rfl⟩
    rw [or_iff_right hnot, decode_encode h]
    constructor
    · intro herror
      have hread := readsTo_unescape offset cs
      rw [eq_error_of_map herror] at hread
      cases hread with
      | @bad front done behind cause hfront hdone hbad =>
        subst hfront
        -- the scanner has passed over a byte behind this backslash
        have hne : behind ≠ [] := by
          rintro rfl
          rw [Utf8.encode_append] at h
          obtain ⟨e, hbehind⟩ := hdone.behind h
          exact StringBody.ne_singleton hbehind
        exact ⟨front, done, behind, cause, _, rfl, hdone, bad_of_escape_eq_error hbad hne, rfl⟩
    · rintro ⟨front, done, behind, cause, length, hencode, hdone, hbad, rfl⟩
      have hcs' : cs = front ++ '\\' :: behind := by
        have hdecode := Utf8.decode?_encode (front ++ '\\' :: behind)
        rw [← hencode, Utf8.decode?_encode] at hdecode
        exact Option.some.inj hdecode
      obtain ⟨herror, hlen⟩ := hbad.escape_eq
      rw [hcs', hdone.unescape_append, unescape, if_pos rfl, herror, ← hlen]
      rfl

/-- No string ends inside an escape. -/
theorem decode_ne_unexpectedEof (h : StringBody content hasEscapes) (context : ScanContext)
    (span : Span) : decode offset content hasEscapes ≠ .error ⟨.unexpectedEof context, span⟩ := by
  rw [Ne, decode_eq_error_iff h]
  rintro (⟨-, _, -, -, heq⟩ | ⟨_, _, _, _, _, -, -, hbad, heq⟩)
  · cases heq
  · cases heq
    cases hbad

/-- Behind an escape the bytes are whole characters. -/
theorem drop_encode_of_escape {front behind : List Char} {x : Char} {size : Nat}
    (h : escape behind = .ok (x, size)) :
    (Utf8.encode (front ++ '\\' :: behind)).drop ((Utf8.encode front).length + 1 + size)
      = Utf8.encode (behind.drop size) := by
  have hback : Utf8.encode (front ++ '\\' :: behind)
      = (Utf8.encode front ++ [Window.backslash]) ++ Utf8.encode behind := by
    rw [Utf8.encode_append, Utf8.encode_cons, List.append_assoc]
    rfl
  have hlen : (Utf8.encode front).length + 1
      = (Utf8.encode front ++ [Window.backslash]).length := by
    rw [List.length_append, List.length_singleton]
  rw [hback, hlen, List.drop_length_add_append, encode_drop_of_escape h]

end

/-- A string token is the body of a string. -/
theorem body_of_scanToken {atEof hasEscapes : Bool} {bytes content : List UInt8}
    {skipped width : Nat}
    (h : scanToken atEof bytes = .token (.string content hasEscapes) skipped width) :
    StringBody content hasEscapes := by
  obtain ⟨_, _, _, -, -, hspells, -, -⟩ := exists_of_scanToken h
  cases hspells with
  | mark hm => exact absurd (mem_markBytes hm) (by simp [markBytes])
  | word hw => simp [wordBytes] at hw
  | string hbody => exact hbody

/-- **A string token decodes by the grammar of strings.**  Its flag says whether there is a
backslash; it decodes to what its characters denote, if its bytes are encoded text and each
backslash, from left to right, starts an escape; otherwise the error is that of the first invalid
bytes, or else that of the first bad escape.  No string ends inside an escape, and behind each
escape the bytes are whole characters. -/
theorem scanned_string_decodes {atEof hasEscapes : Bool} {bytes content : List UInt8}
    {skipped width : Nat}
    (h : scanToken atEof bytes = .token (.string content hasEscapes) skipped width) (offset : Nat) :
    (hasEscapes = true ↔ Window.backslash ∈ content) ∧
    (∀ s, decode offset content hasEscapes = .ok s ↔
      ∃ cs, content = Utf8.encode cs ∧ Denotes cs s.toList) ∧
    (∀ e, decode offset content hasEscapes = .error e ↔
      IsInvalidAt offset content e ∨ IsFirstBad offset content e) ∧
    (∀ context span,
      decode offset content hasEscapes ≠ .error ⟨.unexpectedEof context, span⟩) ∧
    ∀ front done behind x size, content = Utf8.encode (front ++ '\\' :: behind) →
      Denotes front done → escape behind = .ok (x, size) →
      content.drop ((Utf8.encode front).length + 1 + size) = Utf8.encode (behind.drop size) := by
  have hbody := body_of_scanToken h
  refine ⟨hbody.hasEscapes_iff, ?_, ?_, ?_, ?_⟩
  · intro s
    exact decode_eq_ok_iff hbody
  · intro e
    exact decode_eq_error_iff hbody
  · intro context span
    exact decode_ne_unexpectedEof hbody context span
  · rintro front done behind x size rfl - hescape
    exact drop_encode_of_escape hescape

/-- Between quotes stand a pair and a backslash that starts no escape, in the bytes of
`\\ud83d\\ude00\\q`: the pair is read, and the error points at the second backslash. -/
theorem scanned_string_decodes_pair :
    scanToken true [0x22, 0x5c, 0x75, 0x64, 0x38, 0x33, 0x64, 0x5c, 0x75, 0x64, 0x65, 0x30, 0x30,
        0x5c, 0x71, 0x22]
      = .token (.string [0x5c, 0x75, 0x64, 0x38, 0x33, 0x64, 0x5c, 0x75, 0x64, 0x65, 0x30, 0x30,
          0x5c, 0x71] true) 0 16 ∧
    decode 1 [0x5c, 0x75, 0x64, 0x38, 0x33, 0x64, 0x5c, 0x75, 0x64, 0x65, 0x30, 0x30, 0x5c, 0x71]
      true = .error ⟨.invalidEscape 'q', ⟨13, 2⟩⟩ := by
  have hscan : scanToken true [0x22, 0x5c, 0x75, 0x64, 0x38, 0x33, 0x64, 0x5c, 0x75, 0x64, 0x65,
      0x30, 0x30, 0x5c, 0x71, 0x22] = .token (.string [0x5c, 0x75, 0x64, 0x38, 0x33, 0x64, 0x5c,
        0x75, 0x64, 0x65, 0x30, 0x30, 0x5c, 0x71] true) 0 16 := by
    show scanString true 0 _ = _
    rw [scanString, scanContent_eq]
    rfl
  have hhigh : HexValue ['d', '8', '3', 'd'] 0xd83d :=
    .digits (i := 13) (j := 8) (k := 3) (l := 13) ⟨by decide, .inl rfl⟩ ⟨by decide, .inl rfl⟩
      ⟨by decide, .inl rfl⟩ ⟨by decide, .inl rfl⟩
  have hlow : HexValue ['d', 'e', '0', '0'] 0xde00 :=
    .digits (i := 13) (j := 14) (k := 0) (l := 0) ⟨by decide, .inl rfl⟩ ⟨by decide, .inl rfl⟩
      ⟨by decide, .inl rfl⟩ ⟨by decide, .inl rfl⟩
  have hpair : Denotes ['\\', 'u', 'd', '8', '3', 'd', '\\', 'u', 'd', 'e', '0', '0'] ['😀'] :=
    .escape (.pair hhigh (by decide) hlow (by decide) (by decide)) .nil
  have hbad : BadEscape ['q'] (.invalidEscape 'q') 2 :=
    .letter (by simp [letterEscapes]) (by decide)
  refine ⟨hscan, ((scanned_string_decodes hscan 1).2.2.1 _).mpr (.inr ?_)⟩
  exact ⟨_, _, _, _, _, by decide, hpair, hbad, by decide⟩

end StringContent

end Columnar
