import Columnar.Json.Intake
import Columnar.Proofs.Json.Demand

/-!
# Taking in a text is taking its values

A builder takes in a text to its end exactly if the text holds JSON values one after another, and
the builder takes what these mean; then it is the builder that takes the values.

## Main results

* `Builder.takeTokens_eq_ok_iff` — **tokens are taken to their end exactly if they are demanded**,
  and the builder takes the pushes of the values.
* `Builder.pushBytes_iff_extend` — **taking in a text is taking the values it holds.**
-/

namespace Columnar

namespace Progress

variable {o : ReadOptions} {s s' : Progress} {t : Located} {q : Option Push}

theorem length_frames_complete (s : Progress) :
    s.complete.frames.length = s.frames.length := by
  obtain ⟨frames, count⟩ := s
  cases frames <;> rfl

theorem length_frames_advanceValue (h : s.advanceValue o t = .ok (s', q))
    (hframes : s.frames.length ≤ o.maxDepth) : s'.frames.length ≤ o.maxDepth := by
  unfold advanceValue at h
  split at h
  · cases h
  · next hopen =>
    split at h
    · next ht =>
      cases h
      rw [ht] at hopen
      have hlt : s.frames.length < o.maxDepth := by simpa [Token.isOpening] using hopen
      exact hlt
    · next ht =>
      cases h
      rw [ht] at hopen
      have hlt : s.frames.length < o.maxDepth := by simpa [Token.isOpening] using hopen
      exact hlt
    · cases hpush : o.scalarPush s.expected t with
      | error e =>
        rw [hpush] at h
        cases h
      | ok p =>
        rw [hpush] at h
        cases h
        rwa [length_frames_complete]

theorem length_frames_advanceKey {outer : List Frame}
    (h : s.advanceKey o outer t = .ok (s', q)) : s'.frames.length = outer.length + 1 := by
  unfold advanceKey at h
  split at h
  · split at h
    · cases h
      rfl
    · cases h
  · cases h

/-- A token keeps the nesting within the limit. -/
theorem length_frames_advance (h : s.advance o t = .ok (s', q))
    (hframes : s.frames.length ≤ o.maxDepth) : s'.frames.length ≤ o.maxDepth := by
  have hkey : ∀ outer : List Frame, outer.length + 1 ≤ o.maxDepth →
      s.advanceKey o outer t = .ok (s', q) → s'.frames.length ≤ o.maxDepth := by
    intro outer houter hok
    rwa [length_frames_advanceKey hok]
  have hclose : ∀ outer : List Frame, outer.length + 1 ≤ o.maxDepth →
      (complete ⟨outer, s.count⟩).frames.length ≤ o.maxDepth := by
    intro outer houter
    rw [length_frames_complete]
    exact Nat.le_of_succ_le houter
  have hvalue : s.advanceValue o t = .ok (s', q) → s'.frames.length ≤ o.maxDepth :=
    fun hok => length_frames_advanceValue hok hframes
  obtain ⟨frames, count⟩ := s
  obtain ⟨token, span⟩ := t
  match frames with
  | [] | .list .item :: outer | .record .value :: outer => exact hvalue h
  | .list .start :: outer =>
    cases token with
    | arrayEnd =>
      cases h
      exact hclose outer hframes
    | _ => exact hvalue h
  | .list .behindItem :: outer =>
    cases token with
    | arrayEnd =>
      cases h
      exact hclose outer hframes
    | comma =>
      cases h
      exact hframes
    | _ => cases h
  | .record .start :: outer =>
    cases token with
    | objectEnd =>
      cases h
      exact hclose outer hframes
    | _ => exact hkey outer hframes h
  | .record .key :: outer => exact hkey outer hframes h
  | .record .colon :: outer =>
    cases token with
    | colon =>
      cases h
      exact hframes
    | _ => cases h
  | .record .behindValue :: outer =>
    cases token with
    | objectEnd =>
      cases h
      exact hclose outer hframes
    | comma =>
      cases h
      exact hframes
    | _ => cases h

end Progress

namespace Builder

/-! ### One token -/

section

variable {b b' : Builder} {o : ReadOptions} {ending : Ending} {s s' : Progress} {t : Located}
  {p : Push}

theorem takeTokens_of_error {e : JsonError} (h : s.advance o t = .error e) (ts : List Located) :
    b.takeTokens o ending s (t :: ts) = ⟨b, .error e⟩ := by
  rw [takeTokens, h]

theorem takeTokens_of_none (h : s.advance o t = .ok (s', none)) (ts : List Located) :
    b.takeTokens o ending s (t :: ts) = b.takeTokens o ending s' ts := by
  rw [takeTokens, h]

theorem takeTokens_of_ok (h : s.advance o t = .ok (s', some p)) (hp : b.push p = .ok b')
    (ts : List Located) :
    b.takeTokens o ending s (t :: ts) = b'.takeTokens o ending s' ts := by
  rw [takeTokens, h]
  simp only [hp]

theorem takeTokens_of_refused {r : Refused Builder} (h : s.advance o t = .ok (s', some p))
    (hp : b.push p = .error r) (ts : List Located) :
    b.takeTokens o ending s (t :: ts) = ⟨r.state, .error ⟨.builder r.error, t.span⟩⟩ := by
  rw [takeTokens, h]
  simp only [hp]

end

/-! ### All tokens -/

/-- **Tokens are taken to their end exactly if they are demanded** and the builder takes the pushes
of the values that they are. -/
theorem takeTokens_eq_ok_iff {b b' : Builder} {o : ReadOptions} {s : Progress} {offset n : Nat}
    {ts : List Located} (hcheck : o.check = false) (hframes : s.frames.length ≤ o.maxDepth)
    (hspells : ∀ t ∈ ts, ∃ text, Spells t.token text) :
    b.takeTokens o (.finished offset) s ts = ⟨b', .ok n⟩
      ↔ ∃ ps, Demand.Holds o s (ts.map Located.token) ps n ∧ b.pushAll ps = .ok b' := by
  induction ts generalizing b s with
  | nil =>
    simp only [List.map_nil, Demand.holds_nil_iff]
    obtain ⟨frames, count⟩ := s
    cases frames with
    | nil =>
      constructor
      · intro h
        cases h
        exact ⟨[], ⟨rfl, rfl, rfl⟩, rfl⟩
      · rintro ⟨ps, ⟨-, rfl, rfl⟩, hok⟩
        cases hok
        rfl
    | cons f outer =>
      refine iff_of_false (fun h => ?_) (by rintro ⟨ps, ⟨hnil, -⟩, -⟩; cases hnil)
      cases h
  | cons t ts ih =>
    obtain ⟨text, ht⟩ := hspells t List.mem_cons_self
    have hrest := fun u hu => hspells u (List.mem_cons_of_mem _ hu)
    simp only [List.map_cons, Demand.holds_cons_iff hcheck hframes ht]
    cases hadvance : s.advance o t with
    | error e =>
      rw [takeTokens_of_error hadvance]
      refine iff_of_false (fun h => by cases h) ?_
      rintro ⟨ps, hleads, -⟩
      exact hleads
    | ok r =>
      obtain ⟨s', q⟩ := r
      have hframes' := Progress.length_frames_advance hadvance hframes
      cases q with
      | none =>
        rw [takeTokens_of_none hadvance]
        exact ih hframes' hrest
      | some p =>
        cases hp : b.push p with
        | error r =>
          rw [takeTokens_of_refused hadvance hp]
          refine iff_of_false (fun h => by cases h) ?_
          rintro ⟨ps, ⟨more, rfl, -⟩, hok⟩
          rw [pushAll_cons_error hp] at hok
          cases hok
        | ok b₁ =>
          rw [takeTokens_of_ok hadvance hp]
          refine (ih hframes' hrest).trans ?_
          constructor
          · rintro ⟨more, hholds, hok⟩
            exact ⟨p :: more, ⟨more, rfl, hholds⟩, by rw [pushAll_cons_ok hp, hok]⟩
          · rintro ⟨ps, ⟨more, rfl, hholds⟩, hok⟩
            rw [pushAll_cons_ok hp] at hok
            exact ⟨more, hholds, hok⟩

/-- Only behind its last token a text is taken in to its end. -/
theorem exists_finished_of_takeTokens {b b' : Builder} {o : ReadOptions} {ending : Ending}
    {s : Progress} {n : Nat} {ts : List Located}
    (h : b.takeTokens o ending s ts = ⟨b', .ok n⟩) : ∃ offset, ending = .finished offset := by
  induction ts generalizing b s with
  | nil =>
    cases ending with
    | finished offset => exact ⟨offset, rfl⟩
    | unscannable | unreadable => cases h
  | cons t ts ih =>
    cases hadvance : s.advance o t with
    | error e =>
      rw [takeTokens_of_error hadvance] at h
      cases h
    | ok r =>
      obtain ⟨s', q⟩ := r
      cases q with
      | none =>
        rw [takeTokens_of_none hadvance] at h
        exact ih h
      | some p =>
        cases hp : b.push p with
        | error r =>
          rw [takeTokens_of_refused hadvance hp] at h
          cases h
        | ok b₁ =>
          rw [takeTokens_of_ok hadvance hp] at h
          exact ih h

/-! ### Texts -/

/-- A text that is taken in to its end holds values that the builder takes. -/
theorem exists_extend_of_pushBytes {b b' : Builder} {o : ReadOptions} {bytes : List UInt8}
    {n : Nat} (hcheck : o.check = false) (h : b.pushBytes o bytes = ⟨b', .ok n⟩) :
    ∃ js vs, js.length = n ∧ Lexes bytes (js.flatMap Json.tokens) ∧
      Json.itemValues? o js = some vs ∧ Value.itemsDepth vs ≤ o.maxDepth ∧
      b.extend vs = .ok b' := by
  obtain ⟨offset, hending⟩ := exists_finished_of_takeTokens h
  have hstop : ∃ offset, (lex true 0 bytes).stop = .finished offset := by
    have hne := stop_lex_ne_incomplete 0 bytes
    change (lex true 0 bytes).stop.ending = .finished offset at hending
    cases hs : (lex true 0 bytes).stop with
    | finished offset => exact ⟨offset, rfl⟩
    | incomplete offset rest => exact absurd hs (hne offset rest)
    | error offset e =>
      rw [hs] at hending
      cases hending
  obtain ⟨_, hstop⟩ := hstop
  have hlexes := lexes_of_lex hstop
  have hspells : ∀ t ∈ (lex true 0 bytes).tokens, ∃ text, Spells t.token text :=
    fun t ht => hlexes.spells t.token (List.mem_map_of_mem ht)
  rw [pushBytes, takeStream, hending] at h
  obtain ⟨ps, ⟨js, vs, hvs, hdepth, hts, rfl, rfl⟩, hok⟩ :=
    (takeTokens_eq_ok_iff hcheck (Nat.zero_le _) hspells).mp h
  refine ⟨js, vs, (Nat.zero_add _).symm, ?_, hvs, hdepth, hok⟩
  rw [← hts]
  exact hlexes

/-- A text of values that the builder takes is taken in to its end. -/
theorem pushBytes_of_jsonTexts {b b' : Builder} {o : ReadOptions} {bytes : List UInt8}
    {js : List Json} {vs : List Value} (hcheck : o.check = false) (htexts : JsonTexts js bytes)
    (hvs : Json.itemValues? o js = some vs) (hdepth : Value.itemsDepth vs ≤ o.maxDepth)
    (hext : b.extend vs = .ok b') : b.pushBytes o bytes = ⟨b', .ok js.length⟩ := by
  obtain ⟨ts, offset, hts, hlex⟩ := htexts.lex_eq 0
  have hlexes := lexes_of_lex (by rw [hlex])
  rw [hlex] at hlexes
  have hspells : ∀ t ∈ ts, ∃ text, Spells t.token text :=
    fun t ht => hlexes.spells t.token (List.mem_map_of_mem ht)
  have hstream : tokensOf bytes = ⟨ts, .finished offset⟩ := by
    rw [tokensOf, hlex]
    rfl
  rw [pushBytes, hstream]
  refine (takeTokens_eq_ok_iff hcheck (Nat.zero_le _) hspells).mpr ⟨Value.itemPushes vs, ?_, hext⟩
  exact ⟨js, vs, hvs, hdepth, hts, rfl, (Nat.zero_add _).symm⟩

/-- **Taking in a text is taking the values it holds.**  In every state that calls come to, if no
container is open and the builder is not sealed, and new fields may come up:  a text that is
taken in to its end is made of JSON values, as many as are counted; they nest no deeper than
both limits allow, no object has a key twice, and the builder is the one that takes what they
mean, with as many elements more and nothing open.  And every text of values with a blank
between any two, whose strings are valid, whose integers are not too large where that is an
error, which nest no deeper than the limit for texts, and whose meanings the builder takes, is
taken in to its end. -/
theorem pushBytes_iff_extend (o : Options) (calls : List Request) (ro : ReadOptions)
    (bytes : List UInt8) (ha : ((new o).run calls).isActive = false)
    (hf : ((new o).run calls).isFinalized = false) (hcheck : ro.check = false) :
    let b := (new o).run calls
    (∀ b' n, b.pushBytes ro bytes = ⟨b', .ok n⟩ →
      ∃ js vs, js.length = n ∧ (∀ ts, Lexes bytes ts ↔ ts = js.flatMap Json.tokens) ∧
        Json.itemValues? ro js = some vs ∧
        (∀ v ∈ vs, v.depth ≤ min ro.maxDepth o.maxDepth ∧ v.KeysDistinct) ∧
        b.extend vs = .ok b' ∧ b'.length = b.length + n ∧ b'.isActive = false) ∧
    ∀ js vs b', JsonTexts js bytes → Json.itemValues? ro js = some vs →
      (∀ v ∈ vs, v.depth ≤ ro.maxDepth) → b.extend vs = .ok b' →
        b.pushBytes ro bytes = ⟨b', .ok js.length⟩ := by
  intro b
  have h : b.Opens ((new o).opened [] calls) := (opens_new o).run calls
  have hnil : (new o).opened [] calls = [] := by
    rw [← h.levels_eq]
    exact Column.levels_eq_nil ha
  rw [hnil] at h
  refine ⟨fun b' n hok => ?_, fun js vs b' htexts hvs hdepth hext => ?_⟩
  · obtain ⟨js, vs, hn, hlexes, hvs, hdepth, hext⟩ := exists_extend_of_pushBytes hcheck hok
    obtain ⟨hactive, hlength, hvalues⟩ := h.extend hf hext
    have hlen := Json.length_itemValues? hvs
    have hunique : ∀ ts, Lexes bytes ts ↔ ts = js.flatMap Json.tokens :=
      fun ts => ⟨fun hts => hts.unique hlexes, fun hts => hts ▸ hlexes⟩
    refine ⟨js, vs, hn, hunique, hvs, fun v hv => ?_, hext, by rw [hlength, hlen, hn], hactive⟩
    have hlimit := (hvalues v hv).1
    rw [show b.options = o from options_run (new o) calls] at hlimit
    exact ⟨Nat.le_min.mpr ⟨Value.itemsDepth_le_iff.mp hdepth v hv, hlimit⟩, (hvalues v hv).2⟩
  · exact pushBytes_of_jsonTexts hcheck htexts hvs (Value.itemsDepth_le_iff.mpr hdepth) hext

/-- The number 12. -/
def twelve : JsonNumber where
  parts := ⟨false, [0x31, 0x32], none, none, []⟩
  grammatical := by constructor <;> simp [isDigitByte]

/-- The string of one letter. -/
def letter : JsonString where
  content := [0x61]
  hasEscapes := false
  body := .plain (by decide) (by decide) (by decide) .nil

/-- A list of a number, and behind a blank an object of one member. -/
theorem pushBytes_iff_extend_listAndObject :
    let bytes := [0x5b, 0x31, 0x32, 0x5d, 0x20, 0x7b, 0x22, 0x61, 0x22, 0x3a, 0x6e, 0x75, 0x6c,
      0x6c, 0x7d]
    ∃ b', (new {}).pushBytes {} bytes = ⟨b', .ok 2⟩ ∧
      (new {}).extend [.list [.int 12], .record none [("a", .null)]] = .ok b' ∧
      b'.length = 2 ∧ b'.isActive = false := by
  intro bytes
  have htexts : JsonTexts [.array [.number twelve], .object [(letter, .null)]] bytes := by
    have hblank : ∀ b ∈ ([] : List UInt8), isBlankByte b = true := nofun
    have hlist : Spaced [.arrayStart, twelve.token, .arrayEnd] [0x5b, 0x31, 0x32, 0x5d] :=
      @Spaced.cons [] [0x5b] _ _ _ hblank (.mark rfl) <|
      @Spaced.cons [] [0x31, 0x32] _ _ _ hblank (.number twelve.grammatical) <|
      @Spaced.cons [] [0x5d] _ _ _ hblank (.mark rfl) (.nil hblank)
    have hobject : Spaced [.objectStart, letter.token, .colon, .null, .objectEnd]
        [0x7b, 0x22, 0x61, 0x22, 0x3a, 0x6e, 0x75, 0x6c, 0x6c, 0x7d] :=
      @Spaced.cons [] [0x7b] _ _ _ hblank (.mark rfl) <|
      @Spaced.cons [] [0x22, 0x61, 0x22] _ _ _ hblank (.string letter.body) <|
      @Spaced.cons [] [0x3a] _ _ _ hblank (.mark rfl) <|
      @Spaced.cons [] [0x6e, 0x75, 0x6c, 0x6c] _ _ _ hblank (.word (.head _)) <|
      @Spaced.cons [] [0x7d] _ _ _ hblank (.mark rfl) (.nil hblank)
    exact @JsonTexts.cons _ _ [0x5b, 0x31, 0x32, 0x5d] _ 0x20 hlist rfl (.last hobject)
  obtain ⟨hforth, hback⟩ := pushBytes_iff_extend {} [] {} bytes rfl rfl rfl
  have hvs : Json.itemValues? {} [.array [.number twelve], .object [(letter, .null)]]
      = some [.list [.int 12], .record none [("a", .null)]] := rfl
  have hok := hback _ _ _ htexts hvs (by decide) rfl
  obtain ⟨-, vs, -, -, -, -, hext, hlength, hactive⟩ := hforth _ _ hok
  exact ⟨_, hok, rfl, hlength, hactive⟩

end Builder

end Columnar
