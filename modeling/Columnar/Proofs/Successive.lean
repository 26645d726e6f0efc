import Columnar.Proofs.Json.Followed
import Columnar.Proofs.Json.Joined
import Columnar.Proofs.Json.Moved
import Columnar.Proofs.Outage

/-!
# Texts one after another

Values stand one behind another in a text, and between them the builder has nothing open and the
grammar remembers nothing but their number.  So a text may be given in two pieces that are parted
between values.

What parts two values is another matter.  Nothing asks for a blank: the first token of a value is
looked for right behind the last one of the value before, and only a number would take a digit that
follows it.

## Main definitions

* `Meets` — a text in which some values are followed by others, with a gap between them.

## Main results

* `Builder.exists_of_pushBytes` — what is left of a text that has been taken in to its end.
* `Builder.pushBytes_pieces` — **a text may be given in two pieces.**
* `Builder.pushBytes_gap` — **a blank is needed only between a number and a digit.**
-/

namespace Columnar

/-- A text behind which nothing is left ends with its last byte. -/
theorem stop_lex_of_ending {bytes : List UInt8} {place : Nat}
    (h : (tokensOf bytes).ending = .finished place) :
    (lex true 0 bytes).stop = .finished bytes.length := by
  have hplace := place_of_stop_lex true 0 bytes
  have hne := stop_lex_ne_incomplete 0 bytes
  change (lex true 0 bytes).stop.ending = .finished place at h
  cases hs : (lex true 0 bytes).stop with
  | finished last =>
    rw [hs] at hplace
    rw [show last = bytes.length by simpa using hplace]
  | incomplete last rest => exact absurd hs (hne last rest)
  | error last e =>
    rw [hs] at h
    cases h

namespace Builder

/-- A text that has been taken in to its end is finished, its tokens have been followed, and they
leave nothing but the number of its values. -/
theorem exists_of_pushBytes {b b' : Builder} {o : ReadOptions} {bytes : List UInt8} {n : Nat}
    (h : b.pushBytes o bytes = ⟨b', .ok n⟩) :
    (lex true 0 bytes).stop = .finished bytes.length ∧
      (∃ ps, Progress.start.Follows o (lex true 0 bytes).tokens ps ⟨[], n⟩) ∧
      ∀ ending us, b.takeTokens o ending .start ((lex true 0 bytes).tokens ++ us)
        = b'.takeTokens o ending ⟨[], n⟩ us := by
  obtain ⟨offset, hending⟩ := exists_finished_of_takeTokens h
  have hstop := stop_lex_of_ending hending
  obtain ⟨taken, ps, s, b₁, -, hfollows, -, hall⟩ :=
    takeTokens_append b o .start (lex true 0 bytes).tokens
  have htokens : b.takeTokens o (.finished bytes.length) .start ((lex true 0 bytes).tokens ++ [])
      = ⟨b', .ok n⟩ := by
    rw [List.append_nil]
    change b.takeTokens o (lex true 0 bytes).stop.ending .start (lex true 0 bytes).tokens = _ at h
    rwa [hstop] at h
  rcases hall with ⟨e, -, herror⟩ | ⟨rfl, hnext⟩
  · rw [herror] at htokens
    cases htokens
  · rw [hnext] at htokens
    obtain ⟨frames, count⟩ := s
    cases frames with
    | cons f outer => cases htokens
    | nil =>
      cases htokens
      exact ⟨hstop, ⟨ps, hfollows⟩, hnext⟩

/-- **A text may be given in two pieces**, parted between values by a newline.  In every state, if
the first piece is taken in to its end, the second one is taken in behind it just as the rest of the
whole text is: the builder is the same, the numbers of values add up, and an error is the same with
its place counted from the start of the whole text. -/
theorem pushBytes_pieces {b b₁ : Builder} {o : ReadOptions} {front : List UInt8} {m : Nat}
    (h : b.pushBytes o front = ⟨b₁, .ok m⟩) (back : List UInt8) :
    (b.pushBytes o (front ++ 0x0a :: back)).builder = (b₁.pushBytes o back).builder ∧
      (∀ n, (b₁.pushBytes o back).outcome = .ok n →
        (b.pushBytes o (front ++ 0x0a :: back)).outcome = .ok (m + n)) ∧
      ∀ e, (b₁.pushBytes o back).outcome = .error e →
        (b.pushBytes o (front ++ 0x0a :: back)).outcome
          = .error ⟨e.cause, ⟨front.length + 1 + e.span.offset, e.span.length⟩⟩ := by
  obtain ⟨hstop, -, hnext⟩ := exists_of_pushBytes h
  have hnewline : ∀ c ∈ (0x0a :: back).head?, continuesNumber c = false := by
    rintro _ ⟨⟩
    rfl
  have hjoined := lex_append_of hstop fun _ _ _ _ => hnewline
  have hblank : lex true (0 + front.length) ([0x0a] ++ back)
      = lex true (front.length + 1 + 0) back := by
    rw [lex_blanks (by simp [isBlankByte]), Nat.zero_add]
    rfl
  rw [List.singleton_append] at hblank
  rw [hblank, lex_behind] at hjoined
  have hwhole : b.pushBytes o (front ++ 0x0a :: back)
      = (b₁.pushBytes o back).behind m (front.length + 1) := by
    rw [pushBytes, takeStream, tokensOf, hjoined, Stop.ending_behind]
    show b.takeTokens o _ .start (_ ++ _) = _
    rw [hnext]
    exact b₁.takeTokens_behind o m (front.length + 1) .start _ _
  rw [hwhole]
  refine ⟨rfl, fun n hn => ?_, fun e he => ?_⟩
  · rw [Intake.behind, hn]
    rfl
  · rw [Intake.behind, he]
    rfl

/-- Behind a number a bracket is at fault, and its place is counted from the start of the whole
text. -/
theorem pushBytes_pieces_numberAndBracket :
    ∃ b₁, (new {}).pushBytes {} [0x31] = ⟨b₁, .ok 1⟩ ∧
      ((new {}).pushBytes {} [0x31, 0x0a, 0x5d]).outcome
        = .error ⟨.unexpectedToken .arrayEnd .value, ⟨2, 1⟩⟩ := by
  have hone : scanToken true [0x31] = .token (.number [0x31] .unsigned) 0 1 := rfl
  have hclose : scanToken true [0x5d] = .token .arrayEnd 0 1 := rfl
  have hend : scanToken true [] = .finished 0 := rfl
  have hfront : tokensOf [0x31] = ⟨[⟨.number [0x31] .unsigned, ⟨0, 1⟩⟩], .finished 1⟩ := by
    simp [tokensOf, lex_of_token hone, lex_of_finished hend, Stop.ending]
  have hback : tokensOf [0x5d] = ⟨[⟨.arrayEnd, ⟨0, 1⟩⟩], .finished 1⟩ := by
    simp [tokensOf, lex_of_token hclose, lex_of_finished hend, Stop.ending]
  have hok : ∃ b₁, (new {}).pushBytes {} [0x31] = ⟨b₁, .ok 1⟩ := by
    rw [pushBytes, hfront]
    exact ⟨_, rfl⟩
  obtain ⟨b₁, hok⟩ := hok
  refine ⟨b₁, hok, (pushBytes_pieces hok [0x5d]).2.2 ⟨.unexpectedToken .arrayEnd .value, ⟨0, 1⟩⟩ ?_⟩
  rw [pushBytes, hback]
  rfl

end Builder

/-! ### What parts two values -/

/-- A text in which some values are followed by others: `u` is the text of the former up to their
last byte, `v` that of the latter from their first byte on, and there are only blanks between. -/
structure Meets (bytes u gap v : List UInt8) (js js' : List Json) : Prop where
  /-- The text is made of the three parts. -/
  parts : bytes = u ++ (gap ++ v)
  /-- There are only blanks between the values. -/
  blanks : ∀ c ∈ gap, isBlankByte c = true
  /-- The tokens of the values in front. -/
  front : (tokensOf u).tokens.map Located.token = js.flatMap Json.tokens
  /-- The tokens of the values behind. -/
  back : (tokensOf v).tokens.map Located.token = js'.flatMap Json.tokens
  /-- The values in front go on to their end. -/
  last : ∀ c ∈ u.getLast?, isBlankByte c = false
  /-- The values behind start at once. -/
  head : ∀ c ∈ v.head?, isBlankByte c = false

/-- Whether a value is a number, and so would go on with a digit that follows it. -/
def Json.isNumber : Json → Bool
  | .number _ => true
  | _ => false

/-- Whether a value is one that stands in no quotes or brackets. -/
def Json.isBare : Json → Bool
  | .null | .bool _ | .number _ => true
  | .string _ | .array _ | .object _ => false

/-- The number that some bytes start with. -/
def JsonNumber.ofBytes (bytes : List UInt8) (h : (splitNumber bytes).flaw? = none) :
    JsonNumber where
  parts := splitNumber bytes
  grammatical := (isGrammatical_splitNumber_iff bytes).mpr h

/-- Whether some bytes start with a digit. -/
def startsWithDigit (bytes : List UInt8) : Bool := bytes.head?.any isDigitByte

/-- A value ends with a number only if it is one. -/
theorem Json.exists_concat (j : Json) : ∃ ts t, j.tokens = ts ++ [t] ∧ t.isNumber = j.isNumber := by
  cases j with
  | null => exact ⟨[], .null, rfl, rfl⟩
  | bool b => exact ⟨[], .bool b, rfl, rfl⟩
  | number n => exact ⟨[], n.token, rfl, rfl⟩
  | string s => exact ⟨[], s.token, rfl, rfl⟩
  | array items => exact ⟨_, .arrayEnd, rfl, rfl⟩
  | object members => exact ⟨_, .objectEnd, rfl, rfl⟩

theorem map_token_lex (offset : Nat) (bytes : List UInt8) :
    (lex true offset bytes).tokens.map Located.token
      = (tokensOf bytes).tokens.map Located.token := by
  have hbehind := lex_behind true offset 0 bytes
  rw [Nat.add_zero] at hbehind
  rw [hbehind, List.map_map]
  rfl

/-- What parts two tokens that follow each other: blanks, of which there are some between a number
and a digit.  Elsewhere the tokens are the same without them. -/
theorem exists_gap {bytes : List UInt8} {front back : List Located} {x y : Located}
    (h : (lex true 0 bytes).tokens = front ++ x :: y :: back) : ∃ u gap v,
      bytes = u ++ (gap ++ v) ∧ (∀ c ∈ gap, isBlankByte c = true) ∧
      (∃ w c, u = w ++ [c] ∧ isBlankByte c = false) ∧
      (∃ c w, v = c :: w ∧ isBlankByte c = false) ∧
      lex true 0 u = ⟨front ++ [x], .finished u.length⟩ ∧
      lex true (gap.length + u.length) v = ⟨y :: back, (lex true 0 bytes).stop⟩ ∧
      if x.token.isNumber && startsWithDigit v then gap ≠ []
      else lex true 0 (u ++ v)
        = ⟨front ++ [x] ++ (lex true u.length v).tokens, (lex true u.length v).stop⟩ := by
  obtain ⟨u, rest, rfl, hlast, hdigit, hu, hrest⟩ := exists_of_lex_append h
  rw [Nat.zero_add] at hu hrest
  obtain ⟨gap, text, tail, rfl, hblanks, ht, -, -, -⟩ :=
    exists_of_tokens_lex (congrArg Lexed.tokens hrest)
  obtain ⟨c, w, rfl, hc⟩ := ht.exists_cons
  rw [List.append_assoc] at hdigit hrest ⊢
  rw [lex_blanks hblanks, Nat.add_comm] at hrest
  refine ⟨u, gap, c :: w ++ tail, rfl, hblanks, hlast, ⟨c, w ++ tail, rfl, hc⟩, hu, hrest, ?_⟩
  split
  · next hmeet =>
    obtain ⟨hn, hstart⟩ := Bool.and_eq_true_iff.mp hmeet
    rintro rfl
    have hc : isDigitByte c = true := hstart
    rw [hdigit hn c rfl] at hc
    cases hc
  · next hmeet =>
    have hnext := @lex_append_of 0 u.length u (c :: w ++ tail) (by rw [hu]) fun t hx hn _ b hb => by
      rw [hu] at hx
      obtain rfl : x = t := by simpa using hx
      obtain rfl : c = b := by simpa using hb
      cases hcontinues : continuesNumber c with
      | false => rfl
      | true =>
        -- then it is a digit
        have hstart := ht.isDigitByte_of_continues c rfl hcontinues
        exact absurd (Bool.and_eq_true_iff.mpr ⟨hn, hstart⟩) hmeet
    rw [Nat.zero_add] at hnext
    rw [hnext, hu]

namespace Builder

/-- Tokens behind others are taken in just so where they come sooner. -/
theorem takeTokens_sooner {b b' : Builder} {o : ReadOptions} {ending : Ending}
    {front back : List Located} {g n : Nat}
    (h : b.takeTokens o (ending.behind g) .start (front ++ back.map (Located.behind g))
      = ⟨b', .ok n⟩) :
    b.takeTokens o ending .start (front ++ back) = ⟨b', .ok n⟩ := by
  obtain ⟨taken, ps, s, b₁, -, -, -, hall⟩ := takeTokens_append b o .start front
  rcases hall with ⟨e, -, herror⟩ | ⟨-, hnext⟩
  · rw [herror] at h
    cases h
  · have hs : s.behind 0 = s := by rw [Progress.behind, Nat.zero_add]
    rw [hnext, ← hs, takeTokens_behind] at h
    rw [hnext]
    cases hi : b₁.takeTokens o ending s back with
    | mk b₂ outcome =>
      rw [hi] at h
      cases outcome with
      | error e => cases h
      | ok m =>
        obtain ⟨rfl, hm⟩ := Intake.mk.inj h
        have hm : 0 + m = n := Except.ok.inj hm
        rw [← hm, Nat.zero_add]

/-- A text that has been taken in to its end is the text of as many values as are counted. -/
theorem exists_values_of_pushBytes {b b' : Builder} {o : ReadOptions} {bytes : List UInt8} {n : Nat}
    (h : b.pushBytes o bytes = ⟨b', .ok n⟩) : ∃ js : List Json, js.length = n ∧
      (tokensOf bytes).tokens.map Located.token = js.flatMap Json.tokens := by
  obtain ⟨hstop, ⟨ps, hfollows⟩, -⟩ := exists_of_pushBytes h
  have hspells : ∀ t ∈ (lex true 0 bytes).tokens, ∃ text, Spells t.token text :=
    fun t ht => (lexes_of_lex hstop).spells _ (List.mem_map_of_mem ht)
  have hholds := hfollows.unchecked.holds rfl (Nat.zero_le _) hspells
    (Demand.holds_nil_iff.mpr ⟨rfl, rfl, rfl⟩)
  rw [List.append_nil] at hholds
  obtain ⟨js, -, -, -, htokens, -, hn⟩ := hholds
  exact ⟨js, (hn.trans (Nat.zero_add _)).symm, htokens⟩

/-- **A blank is needed only between a number and a digit.**  A text that is taken in to its end is
the text of some values.  Wherever one of them follows another, there are only blanks between, and
there are some if the first is a number and the second starts with a digit.  In all other places the
blanks may be left out, and the text is taken in just the same. -/
theorem pushBytes_gap {b b' : Builder} {o : ReadOptions} {bytes : List UInt8} {n : Nat}
    (h : b.pushBytes o bytes = ⟨b', .ok n⟩) :
    ∃ js : List Json, js.length = n ∧
      (tokensOf bytes).tokens.map Located.token = js.flatMap Json.tokens ∧
      ∀ first j j' rest, js = first ++ j :: j' :: rest →
        ∃ u gap v, Meets bytes u gap v (first ++ [j]) (j' :: rest) ∧
          if j.isNumber && startsWithDigit v then gap ≠ []
          else b.pushBytes o (u ++ v) = ⟨b', .ok n⟩ := by
  obtain ⟨js, hn, htokens⟩ := exists_values_of_pushBytes h
  refine ⟨js, hn, htokens, ?_⟩
  rintro first j j' rest rfl
  -- the last token of the one and the first token of the other
  obtain ⟨ts, t, hj, hnumber⟩ := j.exists_concat
  obtain ⟨t', ts', hj'⟩ := List.exists_cons_of_ne_nil
    (j'.tokens_append_ne_nil (rest.flatMap Json.tokens))
  have hsplit : (lex true 0 bytes).tokens.map Located.token
      = (first.flatMap Json.tokens ++ ts) ++ t :: t' :: ts' := by
    refine htokens.trans ?_
    rw [← hj', List.flatMap_append, List.flatMap_cons, List.flatMap_cons, hj]
    simp only [List.append_assoc, List.singleton_append]
  obtain ⟨front, located, hlocated, hfront, hbehind⟩ := List.map_eq_append_iff.mp hsplit
  obtain ⟨x, more, rfl, rfl, hmore⟩ := List.map_eq_cons_iff.mp hbehind
  obtain ⟨y, back, rfl, rfl, hback⟩ := List.map_eq_cons_iff.mp hmore
  obtain ⟨u, gap, v, rfl, hblanks, ⟨w, c, hu, hc⟩, ⟨c', w', hv, hc'⟩, hlexu, hlexv, hgap⟩ :=
    exists_gap hlocated
  refine ⟨u, gap, v, ⟨rfl, hblanks, ?_, ?_, ?_, ?_⟩, ?_⟩
  · rw [← map_token_lex 0, hlexu, List.map_append, hfront, List.flatMap_append]
    simp [hj]
  · rw [← map_token_lex (gap.length + u.length), hlexv, List.map_cons, hback, List.flatMap_cons,
      hj']
  · rw [hu, List.getLast?_concat]
    rintro _ ⟨⟩
    exact hc
  · rw [hv]
    rintro _ ⟨⟩
    exact hc'
  · rw [← hnumber]
    by_cases hmeet : (x.token.isNumber && startsWithDigit v) = true
    · rw [if_pos hmeet] at hgap ⊢
      exact hgap
    · rw [if_neg hmeet] at hgap ⊢
      -- without the blanks all that follows comes sooner
      rw [lex_behind] at hlexv
      obtain ⟨hnext, hstop⟩ := Lexed.mk.inj hlexv
      rw [pushBytes, takeStream, tokensOf, hlocated, List.append_cons, ← hnext, ← hstop,
        Stop.ending_behind] at h
      rw [pushBytes, takeStream, tokensOf, hgap]
      exact takeTokens_sooner h

/-- A date that stands in no quotes. -/
def unquotedDate : List UInt8 := [0x32, 0x30, 0x32, 0x30, 0x2d, 0x31, 0x30, 0x2d, 0x31, 0x32]

/-- The token of its year. -/
def yearToken : Token := .number [0x32, 0x30, 0x32, 0x30] .unsigned

/-- The token of a minus sign and its month. -/
def monthToken : Token := .number [0x2d, 0x31, 0x30] .signed

/-- The token of a minus sign and its day. -/
def dayToken : Token := .number [0x2d, 0x31, 0x32] .signed

/-- A date is a number and two negative ones, the first of which starts where the year ends. -/
theorem lex_date :
    lex true 0 unquotedDate
        = ⟨[⟨yearToken, ⟨0, 4⟩⟩, ⟨monthToken, ⟨4, 3⟩⟩, ⟨dayToken, ⟨7, 3⟩⟩], .finished 10⟩ ∧
      lex true 0 (unquotedDate.take 4) = ⟨[⟨yearToken, ⟨0, 4⟩⟩], .finished 4⟩ ∧
      lex true 0 (unquotedDate.drop 4)
        = ⟨[⟨monthToken, ⟨0, 3⟩⟩, ⟨dayToken, ⟨3, 3⟩⟩], .finished 6⟩ := by
  have hdate : scanToken true unquotedDate = .token yearToken 0 4 := rfl
  have hyear : scanToken true (unquotedDate.take 4) = .token yearToken 0 4 := rfl
  have hmonth : scanToken true (unquotedDate.drop 4) = .token monthToken 0 3 := rfl
  have hday : scanToken true (unquotedDate.drop 7) = .token dayToken 0 3 := rfl
  have hend : scanToken true (unquotedDate.drop 10) = .finished 0 := rfl
  have hnil : (unquotedDate.take 4).drop 4 = unquotedDate.drop 10 := rfl
  refine ⟨?_, ?_, ?_⟩
  all_goals
    simp only [lex_of_token hdate, lex_of_token hyear, lex_of_token hmonth, lex_of_token hday,
      lex_of_finished hend, hnil, List.drop_drop, Nat.zero_add, Nat.add_zero, Nat.reduceAdd]

theorem pushBytes_date : ∃ b', (new {}).pushBytes {} unquotedDate = ⟨b', .ok 3⟩ := by
  rw [pushBytes, takeStream, tokensOf, lex_date.1]
  exact ⟨_, rfl⟩

/-- A date is taken in as three values. -/
theorem pushBytes_gap_date : ∃ b', (new {}).pushBytes {} unquotedDate = ⟨b', .ok 3⟩ ∧
    ∃ js : List Json, js.length = 3 ∧
      (tokensOf unquotedDate).tokens.map Located.token = js.flatMap Json.tokens ∧
      ∀ first j j' rest, js = first ++ j :: j' :: rest →
        ∃ u gap v, Meets unquotedDate u gap v (first ++ [j]) (j' :: rest) ∧
          if j.isNumber && startsWithDigit v then gap ≠ []
          else (new {}).pushBytes {} (u ++ v) = ⟨b', .ok 3⟩ := by
  obtain ⟨b', h⟩ := pushBytes_date
  exact ⟨b', h, pushBytes_gap h⟩

/-- Values that stand in no quotes or brackets may follow each other with nothing between. -/
theorem not_gap_of_isBare : ¬ ∀ (b b' : Builder) (o : ReadOptions) (bytes u gap v : List UInt8)
    (n : Nat) (first rest : List Json) (j j' : Json), b.pushBytes o bytes = ⟨b', .ok n⟩ →
      Meets bytes u gap v (first ++ [j]) (j' :: rest) →
      j.isBare = true → j'.isBare = true → gap ≠ [] := by
  intro hall
  obtain ⟨b', h⟩ := pushBytes_date
  refine hall _ b' {} unquotedDate (unquotedDate.take 4) [] (unquotedDate.drop 4) 3 []
    [.number (.ofBytes [0x2d, 0x31, 0x32] rfl)] (.number (.ofBytes [0x32, 0x30, 0x32, 0x30] rfl))
    (.number (.ofBytes [0x2d, 0x31, 0x30] rfl)) h ⟨rfl, nofun, ?_, ?_, ?_, ?_⟩ rfl rfl rfl
  · rw [tokensOf, lex_date.2.1]
    rfl
  · rw [tokensOf, lex_date.2.2]
    rfl
  · rintro _ ⟨⟩
    rfl
  · rintro _ ⟨⟩
    rfl

end Builder

end Columnar
