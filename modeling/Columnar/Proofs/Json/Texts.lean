import Mathlib.Data.List.Chain
import Columnar.Proofs.Json.Lex
import Columnar.Proofs.Json.Tree

/-!
# Texts of JSON values

The tokens of a value stand one behind another in a text, with blanks between them where one
likes.  A number in a value has a mark behind it, so no number goes on with the next token, and
the tokens that are found are those of the values.

## Main definitions

* `Spaced`, `JsonTexts` — texts of tokens, and of values.
* `Lexes` — the longest tokens of a text.

## Main results

* `Lexes.unique` — a text has one sequence of longest tokens.
* `lexes_of_lex` — **the tokens that are found are the longest ones.**
* `JsonTexts.lex_eq` — **the tokens of values are found.**
-/

namespace Columnar

/-! ### Texts -/

/-- Tokens one behind another, with blanks around them. -/
inductive Spaced : List Token → List UInt8 → Prop
  /-- Blanks. -/
  | nil {blanks : List UInt8} (hb : ∀ b ∈ blanks, isBlankByte b = true) : Spaced [] blanks
  /-- Blanks, a token, and what follows. -/
  | cons {blanks text rest : List UInt8} {t : Token} {ts : List Token}
      (hb : ∀ b ∈ blanks, isBlankByte b = true) (ht : Spells t text) (h : Spaced ts rest) :
      Spaced (t :: ts) (blanks ++ (text ++ rest))

/-- JSON values one behind another, with a blank at least between any two. -/
inductive JsonTexts : List Json → List UInt8 → Prop
  /-- Blanks. -/
  | nil {blanks : List UInt8} (hb : ∀ b ∈ blanks, isBlankByte b = true) : JsonTexts [] blanks
  /-- The last value. -/
  | last {j : Json} {text : List UInt8} (h : Spaced j.tokens text) : JsonTexts [j] text
  /-- A value, a blank, and what follows. -/
  | cons {j : Json} {js : List Json} {text rest : List UInt8} {b : UInt8}
      (h : Spaced j.tokens text) (hb : isBlankByte b = true) (hrest : JsonTexts js rest) :
      JsonTexts (j :: js) (text ++ b :: rest)

/-- The tokens of a text, where each is the longest that starts at its place. -/
inductive Lexes : List UInt8 → List Token → Prop
  /-- Blanks. -/
  | nil {blanks : List UInt8} (hb : ∀ b ∈ blanks, isBlankByte b = true) : Lexes blanks []
  /-- Blanks, a longest token, and what follows. -/
  | cons {blanks text rest : List UInt8} {t : Token} {ts : List Token}
      (hb : ∀ b ∈ blanks, isBlankByte b = true) (ht : Spells t text)
      (hmax : ∀ u text', Spells u text' → text' <+: text ++ rest → text'.length ≤ text.length)
      (h : Lexes rest ts) : Lexes (blanks ++ (text ++ rest)) (t :: ts)

/-! ### The longest tokens -/

theorem blanks_append {blanks rest : List UInt8} (hb : ∀ b ∈ blanks, isBlankByte b = true)
    {t : Token} {text : List UInt8} (ht : Spells t text) :
    (blanks ++ (text ++ rest)).takeWhile isBlankByte = blanks ∧
      (blanks ++ (text ++ rest)).dropWhile isBlankByte = text ++ rest := by
  obtain ⟨b, more, rfl, hblank⟩ := ht.exists_cons
  rw [List.takeWhile_append_of_pos hb, List.dropWhile_append_of_pos hb, List.cons_append,
    List.takeWhile_cons, List.dropWhile_cons, hblank]
  simp

/-- A text has one sequence of longest tokens. -/
theorem Lexes.unique {bytes : List UInt8} {ts us : List Token} (h : Lexes bytes ts)
    (h' : Lexes bytes us) : ts = us := by
  induction h generalizing us with
  | nil hb =>
    cases h' with
    | nil => rfl
    | @cons blanks text rest t ts _ ht =>
      obtain ⟨b, more, rfl, hblank⟩ := ht.exists_cons
      rw [hb b (by simp)] at hblank
      cases hblank
  | @cons blanks text rest t ts hb ht hmax _ ih =>
    generalize hbytes : blanks ++ (text ++ rest) = bytes at h'
    cases h' with
    | nil hb' =>
      obtain ⟨b, more, rfl, hblank⟩ := ht.exists_cons
      rw [hb' b (by rw [← hbytes]; simp)] at hblank
      cases hblank
    | @cons blanks' text' rest' u us hb' hu hmax' hrest =>
      -- both tokens start behind the same blanks, and both are the longest there
      have hdrop : (blanks ++ (text ++ rest)).dropWhile isBlankByte = text ++ rest :=
        (blanks_append hb ht).2
      rw [hbytes, (blanks_append hb' hu).2] at hdrop
      have hlen : text'.length = text.length := by
        refine Nat.le_antisymm (hmax u text' hu ?_) (hmax' t text ht ?_)
        · rw [← hdrop]
          exact List.prefix_append _ _
        · rw [hdrop]
          exact List.prefix_append _ _
      obtain ⟨rfl, rfl⟩ := List.append_inj hdrop hlen
      rw [ht.unique hu, ih hrest]

theorem Lexes.spells {bytes : List UInt8} {ts : List Token} (h : Lexes bytes ts) :
    ∀ t ∈ ts, ∃ text, Spells t text := by
  induction h with
  | nil => nofun
  | @cons _ text _ t _ _ ht _ _ ih =>
    intro u hu
    rcases List.mem_cons.mp hu with rfl | hu
    · exact ⟨text, ht⟩
    · exact ih u hu

/-- **The tokens that are found are the longest ones.** -/
theorem lexes_of_lex {offset offset' : Nat} {bytes : List UInt8}
    (h : (lex true offset bytes).stop = .finished offset') :
    Lexes bytes ((lex true offset bytes).tokens.map Located.token) := by
  fun_induction lex true offset bytes with
  | case1 offset bytes t s w hscan more ih =>
    have hbody : scanBody true (bytes.takeWhile isBlankByte).length (bytes.dropWhile isBlankByte)
        = .token t s w := hscan
    obtain ⟨blanks, text, rest, rfl, hb, ht, rfl, rfl⟩ := exists_of_scanToken hscan
    rw [(blanks_append hb ht).2] at hbody
    have hdrop : (blanks ++ (text ++ rest)).drop (blanks.length + text.length) = rest := by
      rw [← List.append_assoc, ← List.length_append, List.drop_left]
    simp only [more, hdrop] at ih h ⊢
    exact .cons hb ht (fun u text' hu hpre => hu.length_le_of_scanBody hbody hpre) (ih h)
  | case2 offset bytes s hscan => exact .nil (exists_of_finished hscan).1
  | case3 offset bytes s hscan => cases h
  | case4 offset bytes s cause place length hscan => cases h

/-! ### The tokens of values -/

/-- Whether a token is a mark. -/
def Token.isMark : Token → Bool
  | .objectStart | .objectEnd | .arrayStart | .arrayEnd | .colon | .comma => true
  | _ => false

/-- A number has a mark behind it. -/
def Parted (t u : Token) : Prop := t.isNumber = true → u.isMark = true

theorem parted_append {ts us : List Token} {m : Token} (hm : m.isMark = true)
    (hts : ts.IsChain Parted) (hus : (m :: us).IsChain Parted) :
    (ts ++ m :: us).IsChain Parted := by
  refine List.isChain_append.mpr ⟨hts, hus, ?_⟩
  intro t _ u hu _
  cases hu
  exact hm

theorem parted_cons {ts : List Token} {m : Token} (hm : m.isNumber = false)
    (hts : ts.IsChain Parted) : (m :: ts).IsChain Parted := by
  refine List.isChain_cons.mpr ⟨fun u _ hn => ?_, hts⟩
  rw [hm] at hn
  cases hn

/-- What stands in a container with commas between. -/
theorem parted_intercalate {tss : List (List Token)} (h : ∀ ts ∈ tss, ts.IsChain Parted) :
    ([.comma].intercalate tss).IsChain Parted := by
  induction tss with
  | nil => exact .nil
  | cons ts tss ih =>
    have hts := h ts List.mem_cons_self
    cases tss with
    | nil => rwa [List.intercalate_singleton]
    | cons us tss =>
      rw [List.intercalate_cons_cons, List.append_assoc]
      have hrest := ih fun vs hvs => h vs (List.mem_cons_of_mem _ hvs)
      exact parted_append rfl hts (parted_cons rfl hrest)

/-- A container. -/
theorem parted_enclosed {tss : List (List Token)} {first last : Token}
    (hfirst : first.isNumber = false) (hlast : last.isMark = true)
    (h : ∀ ts ∈ tss, ts.IsChain Parted) :
    (first :: [.comma].intercalate tss ++ [last]).IsChain Parted :=
  parted_append hlast (parted_cons hfirst (parted_intercalate h)) (.singleton _)

namespace Json

mutual

/-- In a value, a number has a mark behind it. -/
theorem parted_tokens : ∀ j : Json, j.tokens.IsChain Parted
  | .null | .bool _ | .number _ | .string _ => .singleton _
  | .array items => by
    rw [tokens]
    exact parted_enclosed rfl rfl (parted_itemTokens items)
  | .object members => by
    rw [tokens]
    exact parted_enclosed rfl rfl (parted_memberTokens members)
termination_by structural j => j

theorem parted_itemTokens : ∀ items : List Json, ∀ ts ∈ itemTokens items, ts.IsChain Parted
  | [] => nofun
  | j :: js => by
    intro ts hts
    rcases List.mem_cons.mp hts with rfl | hts
    · exact parted_tokens j
    · exact parted_itemTokens js ts hts
termination_by structural items => items

theorem parted_memberTokens : ∀ members : List (JsonString × Json),
    ∀ ts ∈ memberTokens members, ts.IsChain Parted
  | [] => nofun
  | (key, j) :: rest => by
    intro ts hts
    rcases List.mem_cons.mp hts with rfl | hts
    · exact parted_cons rfl (parted_cons rfl (parted_tokens j))
    · exact parted_memberTokens rest ts hts
termination_by structural members => members

end

end Json

/-! ### Tokens are found in texts -/

theorem continuesNumber_of_blank {b : UInt8} (h : isBlankByte b = true) :
    continuesNumber b = false := by
  rcases eq_of_isBlankByte h with rfl | rfl | rfl | rfl <;> rfl

/-- No number goes on with a mark. -/
theorem Spells.head?_mark {t : Token} {text rest : List UInt8} (h : Spells t text)
    (hm : t.isMark = true) : ∀ b ∈ (text ++ rest).head?, continuesNumber b = false := by
  cases h with
  | @mark _ b h =>
    have hmarks : ∀ m ∈ markBytes, continuesNumber m.2 = false := by decide
    intro b' hb'
    cases hb'
    exact hmarks _ (mem_markBytes h)
  | word h => rcases wordBytes_cases h with ⟨rfl, -⟩ | ⟨rfl, -⟩ | ⟨rfl, -⟩ <;> cases hm
  | string | number => cases hm

/-- Behind a number comes a byte with which it does not go on, or the end. -/
theorem Spaced.head? {ts : List Token} {text rest : List UInt8} (h : Spaced ts text)
    (hmark : ∀ u ∈ ts.head?, u.isMark = true)
    (hrest : ∀ b ∈ rest.head?, continuesNumber b = false) :
    ∀ b ∈ (text ++ rest).head?, continuesNumber b = false := by
  cases h with
  | nil hb =>
    cases text with
    | nil => exact hrest
    | cons b text =>
      intro b' hb'
      cases hb'
      exact continuesNumber_of_blank (hb b List.mem_cons_self)
  | @cons blanks text' rest' t ts hb ht _ =>
    cases blanks with
    | nil =>
      rw [List.nil_append, List.append_assoc]
      exact ht.head?_mark (hmark t rfl)
    | cons b blanks =>
      intro b' hb'
      cases hb'
      exact continuesNumber_of_blank (hb b List.mem_cons_self)

/-- A token behind blanks is found, unless it is a number and goes on. -/
theorem Spells.lex_eq {t : Token} {blanks text rest : List UInt8} (h : Spells t text)
    (hb : ∀ b ∈ blanks, isBlankByte b = true)
    (hrest : t.isNumber = true → ∀ b ∈ rest.head?, continuesNumber b = false) (offset : Nat) :
    ∃ u : Located, ∃ offset', u.token = t ∧ lex true offset (blanks ++ (text ++ rest))
      = ⟨u :: (lex true offset' rest).tokens, (lex true offset' rest).stop⟩ := by
  have hscan : scanToken true (blanks ++ (text ++ rest)) = .token t blanks.length text.length := by
    rw [scanToken, (blanks_append hb h).1, (blanks_append hb h).2, h.scanBody hrest]
  have hdrop : (blanks ++ (text ++ rest)).drop (blanks.length + text.length) = rest := by
    rw [← List.append_assoc, ← List.length_append, List.drop_left]
  rw [lex_of_token hscan, hdrop]
  exact ⟨_, _, rfl, rfl⟩

/-- Tokens with a mark behind each number are found, and then what follows. -/
theorem Spaced.lex_eq {ts : List Token} {text rest : List UInt8} (h : Spaced ts text)
    (hparted : ts.IsChain Parted) (hrest : ∀ b ∈ rest.head?, continuesNumber b = false)
    (offset : Nat) : ∃ us : List Located, ∃ offset', us.map Located.token = ts ∧
      lex true offset (text ++ rest)
        = ⟨us ++ (lex true offset' rest).tokens, (lex true offset' rest).stop⟩ := by
  induction h generalizing offset with
  | nil hb => exact ⟨[], _, rfl, lex_blanks hb true offset rest⟩
  | @cons blanks text text' t ts hb ht htail ih =>
    obtain ⟨hnext, hchain⟩ := List.isChain_cons.mp hparted
    have hbehind : t.isNumber = true →
        ∀ b ∈ (text' ++ rest).head?, continuesNumber b = false := fun hn =>
      htail.head? (fun u hu => hnext u hu hn) hrest
    obtain ⟨u, offset₁, hu, hlex⟩ := ht.lex_eq hb hbehind offset
    obtain ⟨us, offset', hus, hlex'⟩ := ih hchain offset₁
    refine ⟨u :: us, offset', by rw [List.map_cons, hu, hus], ?_⟩
    rw [List.append_assoc, List.append_assoc, hlex, hlex']
    rfl

/-- Tokens before a blank are found, and then what follows. -/
theorem Spaced.lex_blank {ts : List Token} {text rest : List UInt8} {b : UInt8} (h : Spaced ts text)
    (hparted : ts.IsChain Parted) (hb : isBlankByte b = true) (offset : Nat) :
    ∃ us : List Located, ∃ offset', us.map Located.token = ts ∧
      lex true offset (text ++ b :: rest)
        = ⟨us ++ (lex true offset' rest).tokens, (lex true offset' rest).stop⟩ := by
  have hstop : ∀ c ∈ (b :: rest).head?, continuesNumber c = false := by
    intro c hc
    cases hc
    exact continuesNumber_of_blank hb
  obtain ⟨us, offset₁, hus, hlex⟩ := h.lex_eq hparted hstop offset
  have hblank : lex true offset₁ ([b] ++ rest) = lex true (offset₁ + 1) rest :=
    lex_blanks (by simpa using hb) true offset₁ rest
  refine ⟨us, offset₁ + 1, hus, ?_⟩
  rw [hlex, ← List.singleton_append, hblank]

/-- Tokens at the end of a text are found. -/
theorem Spaced.lex_last {ts : List Token} {text : List UInt8} (h : Spaced ts text)
    (hparted : ts.IsChain Parted) (offset : Nat) :
    ∃ us : List Located, ∃ offset', us.map Located.token = ts ∧
      lex true offset text = ⟨us, .finished offset'⟩ := by
  have hend : ∀ n, lex true n [] = ⟨[], .finished n⟩ := fun n => lex_of_finished (s := 0) rfl
  have hnil : ∀ b ∈ ([] : List UInt8).head?, continuesNumber b = false := nofun
  obtain ⟨us, offset', hus, hlex⟩ := h.lex_eq hparted hnil offset
  rw [List.append_nil, hend, List.append_nil] at hlex
  exact ⟨us, offset', hus, hlex⟩

/-- **The tokens of values are found**, and nothing else. -/
theorem JsonTexts.lex_eq {js : List Json} {bytes : List UInt8} (h : JsonTexts js bytes)
    (offset : Nat) : ∃ us : List Located, ∃ offset', us.map Located.token = js.flatMap Json.tokens ∧
      lex true offset bytes = ⟨us, .finished offset'⟩ := by
  induction h generalizing offset with
  | nil hb => exact (Spaced.nil hb).lex_last .nil offset
  | @last j text h =>
    rw [List.flatMap_singleton]
    exact h.lex_last j.parted_tokens offset
  | @cons j js text rest b h hb _ ih =>
    obtain ⟨us, offset₁, hus, hlex⟩ := h.lex_blank j.parted_tokens hb offset
    obtain ⟨vs, offset', hvs, hlex'⟩ := ih offset₁
    refine ⟨us ++ vs, offset', by rw [List.map_append, hus, hvs, List.flatMap_cons], ?_⟩
    rw [hlex, hlex']

end Columnar
