import Columnar.Json.Scan
import Columnar.Proofs.Json.Window

/-!
# The bytes of a string

Passing over plain windows finds the closing quote where going a byte at a time finds it.  What
is found does not depend on what follows, so it stays when more bytes arrive.

## Main definitions

* `StringBody` — what may stand between two quotes.

## Main results

* `scanContent_eq` — windows change nothing.
* `scanContentByByte_eq_closed_iff` — **what stands before the closing quote.**
* `scanContentByByte_append` — what is found in a string stays.
-/

namespace Columnar

/-- What may stand between two quotes, and whether a backslash is part of it: bytes that stand
for themselves, and pairs of a backslash and any byte. -/
inductive StringBody : List UInt8 → Bool → Prop
  /-- Nothing. -/
  | nil : StringBody [] false
  /-- A byte that stands for itself. -/
  | plain {b : UInt8} {content : List UInt8} {hasEscapes : Bool} (hq : b ≠ Window.quote)
      (hb : b ≠ Window.backslash) (hc : ¬ b < 0x20) (h : StringBody content hasEscapes) :
      StringBody (b :: content) hasEscapes
  /-- A backslash and the byte behind it. -/
  | escaped {b : UInt8} {content : List UInt8} {hasEscapes : Bool}
      (h : StringBody content hasEscapes) : StringBody (Window.backslash :: b :: content) true

theorem Content.behind_behind (c : Content) (front bytes : List UInt8) (e e' : Bool) :
    (c.behind bytes e).behind front e' = c.behind (front ++ bytes) (e' || e) := by
  cases c with
  | closed content hasEscapes =>
    simp only [behind, List.append_assoc, Bool.or_assoc]
  | unclosed => rfl
  | control b place => simp only [behind, List.length_append, Nat.add_assoc]

/-! ### A byte at a time -/

theorem scanContentByByte_quote (rest : List UInt8) :
    scanContentByByte (Window.quote :: rest) = .closed [] false := by
  cases rest <;> exact if_pos rfl

theorem scanContentByByte_backslash (b : UInt8) (rest : List UInt8) :
    scanContentByByte (Window.backslash :: b :: rest)
      = (scanContentByByte rest).behind [Window.backslash, b] true := by
  refine (if_neg (by decide)).trans (if_pos rfl)

theorem scanContentByByte_control {b : UInt8} (hq : b ≠ Window.quote) (hb : b ≠ Window.backslash)
    (hc : b < 0x20) (rest : List UInt8) : scanContentByByte (b :: rest) = .control b 0 := by
  cases rest <;> exact (if_neg hq).trans ((if_neg hb).trans (if_pos hc))

theorem scanContentByByte_cons {b : UInt8} (hq : b ≠ Window.quote) (hb : b ≠ Window.backslash)
    (hc : ¬ b < 0x20) (rest : List UInt8) :
    scanContentByByte (b :: rest) = (scanContentByByte rest).behind [b] false := by
  cases rest <;> exact (if_neg hq).trans ((if_neg hb).trans (if_neg hc))

/-- Bytes that a string may hold as they are. -/
theorem scanContentByByte_plain {front : List UInt8}
    (h : ∀ b ∈ front, b ≠ Window.quote ∧ b ≠ Window.backslash ∧ ¬ b < 0x20)
    (rest : List UInt8) :
    scanContentByByte (front ++ rest) = (scanContentByByte rest).behind front false := by
  induction front with
  | nil =>
    cases hc : scanContentByByte rest <;> simp [Content.behind, hc]
  | cons b front ih =>
    obtain ⟨hq, hb, hc⟩ := h b List.mem_cons_self
    rw [List.cons_append, scanContentByByte_cons hq hb hc,
      ih fun b' hb' => h b' (List.mem_cons_of_mem _ hb'), Content.behind_behind]
    rfl

/-- Windows change nothing. -/
theorem scanContent_eq (bytes : List UInt8) : scanContent bytes = scanContentByByte bytes := by
  fun_induction scanContent bytes with
  | case1 bytes h ih =>
    have hplain := (Window.isPlain_iff.mp h).2
    rw [ih, ← scanContentByByte_plain hplain, List.take_append_drop]
  | case2 => rfl
  | case3 rest => rw [scanContentByByte_quote]
  | case4 => rfl
  | case5 b rest _ _ ih => rw [scanContentByByte_backslash, ih]
  | case6 b rest _ hq hb hc => rw [scanContentByByte_control hq hb hc]
  | case7 b rest _ hq hb hc ih => rw [scanContentByByte_cons hq hb hc, ih]

/-! ### The closing quote -/

theorem Content.behind_eq_closed {c : Content} {front content : List UInt8} {e hasEscapes : Bool}
    (h : c.behind front e = .closed content hasEscapes) :
    ∃ content' e', c = .closed content' e' ∧ content = front ++ content' ∧
      hasEscapes = (e || e') := by
  cases c with
  | closed content' e' =>
    cases h
    exact ⟨content', e', rfl, rfl, rfl⟩
  | unclosed | control => cases h

theorem StringBody.scanContentByByte {content : List UInt8} {hasEscapes : Bool}
    (h : StringBody content hasEscapes) (rest : List UInt8) :
    Columnar.scanContentByByte (content ++ Window.quote :: rest) = .closed content hasEscapes := by
  induction h with
  | nil => rw [List.nil_append, scanContentByByte_quote]
  | plain hq hb hc _ ih =>
    rw [List.cons_append, scanContentByByte_cons hq hb hc, ih]
    simp [Content.behind]
  | escaped _ ih =>
    rw [List.cons_append, List.cons_append, scanContentByByte_backslash, ih]
    simp [Content.behind]

/-- **What stands before the closing quote** is a body, and every body before a quote is
found. -/
theorem scanContentByByte_eq_closed_iff {bytes content : List UInt8} {hasEscapes : Bool} :
    scanContentByByte bytes = .closed content hasEscapes ↔
      StringBody content hasEscapes ∧ ∃ rest, bytes = content ++ Window.quote :: rest := by
  constructor
  · intro h
    fun_induction scanContentByByte bytes generalizing content hasEscapes with
    | case1 => cases h
    | case2 rest =>
      cases h
      exact ⟨.nil, rest, rfl⟩
    | case3 => cases h
    | case4 e rest hq ih =>
      obtain ⟨content', e', heq, rfl, rfl⟩ := Content.behind_eq_closed h
      obtain ⟨hbody, rest', rfl⟩ := ih heq
      exact ⟨.escaped hbody, rest', rfl⟩
    | case5 => cases h
    | case6 b rest hq hb hc ih =>
      obtain ⟨content', e', heq, rfl, rfl⟩ := Content.behind_eq_closed h
      obtain ⟨hbody, rest', rfl⟩ := ih heq
      exact ⟨.plain hq hb hc hbody, rest', rfl⟩
  · rintro ⟨hbody, rest, rfl⟩
    exact hbody.scanContentByByte rest

/-- What is found in a string stays when more bytes arrive. -/
theorem scanContentByByte_append {bytes : List UInt8} (h : scanContentByByte bytes ≠ .unclosed)
    (more : List UInt8) : scanContentByByte (bytes ++ more) = scanContentByByte bytes := by
  fun_induction scanContentByByte bytes with
  | case1 => exact absurd rfl h
  | case2 rest => rw [List.cons_append, scanContentByByte_quote]
  | case3 => exact absurd rfl h
  | case4 e rest hq ih =>
    have hrest : scanContentByByte rest ≠ .unclosed := by
      intro heq
      exact h (by rw [heq]; rfl)
    rw [List.cons_append, List.cons_append, scanContentByByte_backslash, ih hrest]
  | case5 b rest hq hb hc => rw [List.cons_append, scanContentByByte_control hq hb hc]
  | case6 b rest hq hb hc ih =>
    have hrest : scanContentByByte rest ≠ .unclosed := by
      intro heq
      exact h (by rw [heq]; rfl)
    rw [List.cons_append, scanContentByByte_cons hq hb hc, ih hrest]

end Columnar
