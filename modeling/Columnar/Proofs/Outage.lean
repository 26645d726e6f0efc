import Columnar.Proofs.Interrupted
import Columnar.Proofs.Json.Certain
import Columnar.Proofs.Json.Feed

/-!
# Sources that fail

A source that fails behind its last byte has handed out all bytes before it, and the tokens of the
buffer are those that are certain.  The builder takes them one by one.  Either one of them is at
fault, or there is a fault behind them, and then every continuation of the bytes is at fault in
the same way; or all of them are taken, and the failure of the source comes next.

## Main definitions

* `Feed.IsBreaking` — what a buffer before such a source keeps.
* `Stop.broken` — what comes behind the last token of such a source.

## Main results

* `Feed.tokens_of_isBreaking` — **the tokens are those that are certain.**
* `Builder.takeTokens_append` — tokens are taken piece by piece.
* `Builder.pushSource_of_failure` — **a source that fails leaves what was certain.**
-/

namespace Columnar

/-- What comes behind the tokens of bytes, if the source fails behind these. -/
def Stop.broken (words : String) : Stop → Ending
  | finished offset => .unreadable offset words
  | incomplete offset rest => .unreadable (offset + rest.length) words
  | error _ e => .unscannable e

namespace Feed

variable {f g : Feed} {words : String}

/-- What a buffer keeps before a source that fails behind its last byte. -/
structure IsBreaking (words : String) (f : Feed) : Prop where
  room : f.HasRoom
  failure : f.source.failure? = some words
  ended : f.isEnded = false

theorem IsBreaking.keep (h : f.IsBreaking words) {rest : List UInt8}
    (hrest : rest.length ≤ f.held.length) (offset : Nat) : (f.keep offset rest).IsBreaking words :=
  ⟨h.room.keep hrest offset, h.failure, h.ended⟩

/-- More bytes arrive, and none is lost. -/
theorem IsBreaking.of_refill (h : f.IsBreaking words) (hg : f.refill = .ok g) :
    g.IsBreaking words ∧ g.offset = f.offset ∧
      g.held ++ g.source.data = f.held ++ f.source.data := by
  have hne : f.source.data ≠ [] := by
    intro hnil
    rw [refill, Source.read_of_failure? hnil h.failure] at hg
    cases hg
  obtain ⟨g', hg', hroom, hfailure, hoffset, hbytes, hended⟩ :=
    h.room.exists_refill fun hnil => absurd hnil hne
  rw [hg] at hg'
  cases hg'
  refine ⟨⟨hroom, hfailure.trans h.failure, ?_⟩, hoffset, hbytes⟩
  rw [Bool.eq_false_iff]
  exact fun h => hne (hended h).1

/-- The source fails behind its last byte. -/
theorem IsBreaking.of_refill_error (h : f.IsBreaking words) {words' : String}
    (hg : f.refill = .error words') : f.source.data = [] ∧ words' = words := by
  have hnil : f.source.data = [] := by
    by_contra hne
    obtain ⟨g, hg', -⟩ := h.room.exists_refill fun hnil => absurd hnil hne
    rw [hg] at hg'
    cases hg'
  rw [refill, Source.read_of_failure? hnil h.failure] at hg
  exact ⟨hnil, (Except.error.inj hg).symm⟩

/-- **The tokens are those that are certain** in the bytes that are held, and those that the
source still has. -/
theorem tokens_of_isBreaking (f : Feed) (h : f.IsBreaking words) :
    f.tokens = ⟨(lex false f.offset (f.held ++ f.source.data)).tokens,
      (lex false f.offset (f.held ++ f.source.data)).stop.broken words⟩ := by
  have hfront : ∀ f : Feed, f.IsBreaking words →
      lex f.isEnded f.offset f.held = lex false f.offset f.held := fun f hf => by rw [hf.ended]
  have hnil : ∀ offset, lex false offset [] = ⟨[], .finished offset⟩ := fun offset =>
    lex_of_finished (s := 0) rfl
  -- the induction is on what may still arrive
  fun_induction tokens f with
  | case1 f lexed hended =>
    rw [h.ended] at hended
    cases hended
  | case2 f lexed hended offset e hstop =>
    rw [lex_append, ← hfront f h, Lexed.resume, hstop, hstop]
    rfl
  | case3 f lexed hended offset hstop g hg more ih =>
    obtain ⟨hbreaking, hoffset, hbytes⟩ := (h.keep (Nat.zero_le _) offset).of_refill hg
    rw [lex_append, ← hfront f h, Lexed.resume, hstop]
    simp only [more, ih hbreaking, hoffset, hbytes]
    rfl
  | case4 f lexed hended offset hstop words' hg =>
    obtain ⟨hdata, rfl⟩ := (h.keep (Nat.zero_le _) offset).of_refill_error hg
    change f.source.data = [] at hdata
    rw [lex_append, ← hfront f h, Lexed.resume, hstop, hdata]
    simp [hnil, Stop.broken, lexed]
  | case5 f lexed hended offset rest hstop g hg more ih =>
    obtain ⟨hbreaking, hoffset, hbytes⟩ :=
      (h.keep (length_le_of_stop_lex hstop) offset).of_refill hg
    rw [lex_append, ← hfront f h, Lexed.resume, hstop]
    simp only [more, ih hbreaking, hoffset, hbytes]
    rfl
  | case6 f lexed hended offset rest hstop words' hg =>
    obtain ⟨hdata, rfl⟩ := (h.keep (length_le_of_stop_lex hstop) offset).of_refill_error hg
    change f.source.data = [] at hdata
    have hrest : lex false offset rest = ⟨[], .incomplete offset rest⟩ := by
      change (lex f.isEnded f.offset f.held).stop = _ at hstop
      rw [hfront f h] at hstop
      exact lex_of_stop_lex hstop
    rw [lex_append, ← hfront f h, Lexed.resume, hstop, hdata]
    simp [hrest, Stop.broken, lexed]

end Feed

/-- Behind the tokens of such a source there is a fault that every continuation of the bytes has, or
the failure of the source. -/
theorem broken_stop_lex (bytes : List UInt8) (words : String) :
    (∃ e, (lex false 0 bytes).stop.broken words = .unscannable e ∧ ∀ more,
        tokensOf (bytes ++ more) = ⟨(lex false 0 bytes).tokens, .unscannable e⟩) ∨
      (lex false 0 bytes).stop.broken words = .unreadable bytes.length words := by
  have hend := place_of_stop_lex false 0 bytes
  rw [Nat.zero_add] at hend
  cases hstop : (lex false 0 bytes).stop with
  | error offset e =>
    refine .inl ⟨e, rfl, fun more => ?_⟩
    rw [tokensOf, lex_append, Lexed.resume, hstop]
    simp only [hstop]
    rfl
  | finished offset | incomplete offset rest =>
    rw [hstop] at hend
    rw [← hend]
    exact .inr rfl

/-! ### Faults of texts -/

/-- Not the source is at fault, but the text, or what the builder makes of it. -/
def JsonError.SparesSource (e : JsonError) : Prop := ∀ words, e.cause ≠ .io words

theorem sparesSource_ofScan (e : ScanError) : (JsonError.ofScan e).SparesSource :=
  fun _ h => JsonCause.noConfusion h

section

variable {o : ReadOptions} {s : Progress} {t : Located} {e : JsonError}

theorem sparesSource_of_scalarPush {expected : Expected} (h : o.scalarPush expected t = .error e) :
    e.SparesSource := by
  unfold ReadOptions.scalarPush at h
  split at h
  · cases h
  · cases h
  · split at h <;> cases h
    nofun
  · split at h
    · split at h <;> cases h
      nofun
    · cases h
      nofun
  · cases h
    nofun

theorem sparesSource_of_advanceValue (h : s.advanceValue o t = .error e) : e.SparesSource := by
  unfold Progress.advanceValue at h
  split at h
  · cases h
    nofun
  · split at h
    · cases h
    · cases h
    · exact sparesSource_of_scalarPush (eq_error_of_map h)

theorem sparesSource_of_advanceKey {outer : List Frame} (h : s.advanceKey o outer t = .error e) :
    e.SparesSource := by
  unfold Progress.advanceKey at h
  split at h
  · split at h <;> cases h
    nofun
  · cases h
    nofun

/-- No token is the fault of the source. -/
theorem sparesSource_of_advance (h : s.advance o t = .error e) : e.SparesSource := by
  unfold Progress.advance at h
  split at h
  -- a token is taken, or stands where a key or a value comes next, or is out of place
  all_goals first
    | cases h
    | exact sparesSource_of_advanceKey h
    | exact sparesSource_of_advanceValue h
  all_goals nofun

end

/-! ### Tokens piece by piece -/

namespace Builder

/-- What becomes of tokens, whatever follows them: one of them is at fault, and those before it
have been taken; or all of them have been taken, and what follows comes next. -/
theorem takeTokens_append (b : Builder) (o : ReadOptions) (s : Progress) (ts : List Located) :
    ∃ taken ps s' b', taken <+: ts ∧ s.Follows o taken ps s' ∧ b.pushAll ps = .ok b' ∧
      ((∃ e : JsonError, e.SparesSource ∧
          ∀ ending us, b.takeTokens o ending s (ts ++ us) = ⟨b', .error e⟩) ∨
        taken = ts ∧
          ∀ ending us, b.takeTokens o ending s (ts ++ us) = b'.takeTokens o ending s' us) := by
  induction ts generalizing b s with
  | nil => exact ⟨[], [], s, b, List.nil_prefix, .nil s, rfl, .inr ⟨rfl, fun _ _ => rfl⟩⟩
  | cons t ts ih =>
    cases hadvance : s.advance o t with
    | error e =>
      refine ⟨[], [], s, b, List.nil_prefix, .nil s, rfl, .inl ⟨e, sparesSource_of_advance hadvance,
        fun ending us => ?_⟩⟩
      exact takeTokens_of_error hadvance _
    | ok r =>
      obtain ⟨s₁, q⟩ := r
      cases q with
      | none =>
        obtain ⟨taken, ps, s', b', hprefix, hfollows, hpush, hnext⟩ := ih b s₁
        refine ⟨t :: taken, ps, s', b', List.cons_prefix_cons.mpr ⟨rfl, hprefix⟩,
          .cons hadvance hfollows, hpush, ?_⟩
        simpa only [List.cons_append, takeTokens_of_none hadvance, List.cons.injEq, true_and]
          using hnext
      | some p =>
        cases hp : b.push p with
        | error r =>
          refine ⟨[], [], s, b, List.nil_prefix, .nil s, rfl,
            .inl ⟨⟨.builder r.error, t.span⟩, nofun, fun ending us => ?_⟩⟩
          rw [List.cons_append, takeTokens_of_refused hadvance hp, keeps_push b p r hp]
        | ok b₁ =>
          obtain ⟨taken, ps, s', b', hprefix, hfollows, hpush, hnext⟩ := ih b₁ s₁
          refine ⟨t :: taken, p :: ps, s', b', List.cons_prefix_cons.mpr ⟨rfl, hprefix⟩,
            .cons hadvance hfollows, by rw [pushAll_cons_ok hp, hpush], ?_⟩
          simpa only [List.cons_append, takeTokens_of_ok hadvance hp, List.cons.injEq, true_and]
            using hnext

/-- The size of the buffer is nothing to the tokens. -/
theorem takeTokens_bufferSize (b : Builder) (o : ReadOptions) (size : Nat) (ending : Ending)
    (s : Progress) (ts : List Located) :
    b.takeTokens { o with bufferSize := size } ending s ts = b.takeTokens o ending s ts := by
  have hadvance : ∀ (s : Progress) (t : Located),
      s.advance { o with bufferSize := size } t = s.advance o t := fun _ _ => rfl
  induction ts generalizing b s with
  | nil => rfl
  | cons t ts ih => simp only [takeTokens, hadvance, ih]

/-- **A source that fails leaves what was certain.**  Of any input, let a source hand out the
first bytes, and fail behind them.  There are the tokens that are certain in these bytes, among
which there is no number that touches their end; of them, the builder takes a front, that is, the
pushes of these tokens one by one.  The outcome is never a count but an error, and the same one
for all pieces in which the bytes arrive, with any interruptions, and for every size of the
buffer.  It is the failure of the source, right behind the bytes, and then all certain tokens have
been taken; or it is an error for which the source is not at fault, and then every continuation
of the bytes leads to the same error and leaves the same builder. -/
theorem pushSource_of_failure (b : Builder) (ro : ReadOptions) (input : List UInt8) (k : Nat)
    (hk : k ≤ input.length) (words : String) :
    ∃ certain taken ps s b' e, IsCertain (input.take k) certain ∧
      (∀ t ∈ certain, t.token.isNumber = true → t.span.stop < k) ∧
      taken <+: certain ∧ Progress.start.Follows ro taken ps s ∧ b.pushAll ps = .ok b' ∧
      (e = ⟨.io words, ⟨k, 0⟩⟩ ∧ taken = certain ∨
        e.SparesSource ∧ ∀ more, b.pushBytes ro (input.take k ++ more) = ⟨b', .error e⟩) ∧
      ∀ (source : Source) (size : Nat), source.data = input.take k →
        source.failure? = some words → Delivery.upTo 0 ∉ source.plan →
          b.pushSource { ro with bufferSize := size } source = ⟨b', .error e⟩ := by
  have hlen : (input.take k).length = k := List.length_take_of_le hk
  generalize input.take k = bytes at hlen ⊢
  obtain ⟨taken, ps, s, b', hprefix, hfollows, hpush, hnext⟩ :=
    takeTokens_append b ro .start (lex false 0 bytes).tokens
  have hsource : ∀ (source : Source) (size : Nat), source.data = bytes →
      source.failure? = some words → Delivery.upTo 0 ∉ source.plan →
        b.pushSource { ro with bufferSize := size } source
          = b.takeTokens ro ((lex false 0 bytes).stop.broken words) .start
              ((lex false 0 bytes).tokens ++ []) := by
    rintro source size rfl hfailure hplan
    have hbreaking : (Feed.ofSource source size).IsBreaking words :=
      ⟨Feed.hasRoom_ofSource hplan size, hfailure, rfl⟩
    rw [pushSource, takeStream, Feed.tokens_of_isBreaking _ hbreaking, takeTokens_bufferSize,
      List.append_nil]
    rfl
  have hnumbers : ∀ t ∈ (lex false 0 bytes).tokens, t.token.isNumber = true →
      t.span.stop < k := fun t ht hnumber => by
    have := stop_lt_of_isNumber 0 bytes t ht hnumber
    unfold Span.stop
    omega
  rcases hnext with ⟨e, he, hfault⟩ | ⟨rfl, hall⟩
  · -- a token is at fault, and it is there in every continuation
    refine ⟨_, taken, ps, s, b', e, isCertain_lex bytes, hnumbers, hprefix, hfollows, hpush,
      .inr ⟨he, fun more => ?_⟩, fun source size hdata hfailure hplan => ?_⟩
    · obtain ⟨behind, hbehind⟩ := prefix_tokensOf_append bytes more
      rw [pushBytes, takeStream, ← hbehind, hfault]
    · rw [hsource source size hdata hfailure hplan, hfault]
  · rcases broken_stop_lex bytes words with ⟨e, hbroken, hmore⟩ | hbroken
    · -- there is a fault behind the tokens, in every continuation
      refine ⟨_, _, ps, s, b', .ofScan e, isCertain_lex bytes, hnumbers, hprefix, hfollows, hpush,
        .inr ⟨sparesSource_ofScan e, fun more => ?_⟩, fun source size hdata hfailure hplan => ?_⟩
      · rw [pushBytes, hmore, takeStream, ← List.append_nil (lex false 0 bytes).tokens, hall]
        rfl
      · rw [hsource source size hdata hfailure hplan, hbroken, hall]
        rfl
    · refine ⟨_, _, ps, s, b', ⟨.io words, ⟨k, 0⟩⟩, isCertain_lex bytes, hnumbers, hprefix,
        hfollows, hpush, .inl ⟨rfl, rfl⟩, fun source size hdata hfailure hplan => ?_⟩
      rw [hsource source size hdata hfailure hplan, hbroken, hall, hlen]
      rfl

/-- The text of a list. -/
theorem tokensOf_pairList : tokensOf [0x5b, 0x31, 0x2c, 0x32, 0x33, 0x5d]
    = ⟨[⟨.arrayStart, ⟨0, 1⟩⟩, ⟨.number [0x31] .unsigned, ⟨1, 1⟩⟩, ⟨.comma, ⟨2, 1⟩⟩,
        ⟨.number [0x32, 0x33] .unsigned, ⟨3, 2⟩⟩, ⟨.arrayEnd, ⟨5, 1⟩⟩], .finished 6⟩ := by
  have hopen : scanToken true [0x5b, 0x31, 0x2c, 0x32, 0x33, 0x5d] = .token .arrayStart 0 1 := rfl
  have hone : scanToken true [0x31, 0x2c, 0x32, 0x33, 0x5d]
      = .token (.number [0x31] .unsigned) 0 1 := rfl
  have hcomma : scanToken true [0x2c, 0x32, 0x33, 0x5d] = .token .comma 0 1 := rfl
  have htwentyThree : scanToken true [0x32, 0x33, 0x5d]
      = .token (.number [0x32, 0x33] .unsigned) 0 2 := rfl
  have hclose : scanToken true [0x5d] = .token .arrayEnd 0 1 := rfl
  have hend : scanToken true [] = .finished 0 := rfl
  simp [tokensOf, lex_of_token hopen, lex_of_token hone, lex_of_token hcomma,
    lex_of_token htwentyThree, lex_of_token hclose, lex_of_finished hend, Stop.ending]

/-- The source fails inside the list, where its second item touches the end; the failure is told
although the item would be complete. -/
theorem pushSource_of_failure_insideList :
    5 ≤ [0x5b, 0x31, 0x2c, 0x32, 0x33, 0x5d].length ∧
      Delivery.upTo 0 ∉ [Delivery.interrupted, .upTo 2, .interrupted, .upTo 1] ∧
      ∃ b', ((new {}).pushSource { bufferSize := 0 } ⟨[0x5b, 0x31, 0x2c, 0x32, 0x33],
          [.interrupted, .upTo 2, .interrupted, .upTo 1], some "reader failed"⟩)
        = ⟨b', .error ⟨.io "reader failed", ⟨5, 0⟩⟩⟩ := by
  have hplan : Delivery.upTo 0 ∉ [Delivery.interrupted, .upTo 2, .interrupted, .upTo 1] := by decide
  refine ⟨by decide, hplan, ?_⟩
  obtain ⟨_, _, _, _, b', e, -, -, -, -, -, herror, hsource⟩ :=
    pushSource_of_failure (new {}) {} [0x5b, 0x31, 0x2c, 0x32, 0x33, 0x5d] 5 (by decide)
      "reader failed"
  refine ⟨b', ?_⟩
  rw [hsource _ 0 rfl rfl hplan]
  rcases herror with ⟨rfl, -⟩ | ⟨-, hmore⟩
  · rfl
  · -- with its last byte the list is taken in
    have hlist : ((new {}).pushBytes {} [0x5b, 0x31, 0x2c, 0x32, 0x33, 0x5d]).outcome = .ok 1 := by
      rw [pushBytes, tokensOf_pairList]
      rfl
    have hfails := hmore [0x5d]
    change (new {}).pushBytes {} [0x5b, 0x31, 0x2c, 0x32, 0x33, 0x5d] = _ at hfails
    rw [hfails] at hlist
    cases hlist

end Builder

end Columnar
