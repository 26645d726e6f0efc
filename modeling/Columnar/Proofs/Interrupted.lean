import Columnar.Proofs.Column.Legible
import Columnar.Proofs.Column.Reread
import Columnar.Proofs.Json.Followed
import Columnar.Proofs.Json.Places
import Columnar.Proofs.NormalForm

/-!
# Texts that are not taken in to their end

Whatever ends a text early, the builder has taken the pushes of the tokens before it, one by one,
and no others: a token that is not taken, or whose push is refused, leaves it as it was.  These
tokens are complete values and the start of one more.  So the builder holds what it held before,
then the values, and what is open of the last one is under way; a snapshot shows nothing of that.

## Main results

* `Builder.exists_follows_of_takeTokens` — what has been taken of a text that fails, and where it
  fails.
* `Builder.exists_holds_snapshot` — a builder with nothing open holds what its snapshot shows.
* `Builder.pushBytes_error` — **a text that fails leaves the values that were complete.**
-/

namespace Columnar.Builder

open List (Forall₂)

/-- What has been taken of a text that fails: the tokens up to the one that the error points at, or
all of them, if the text ends or has no further token. -/
theorem exists_follows_of_takeTokens {b b' : Builder} {o : ReadOptions} {ending : Ending}
    {s : Progress} {ts : List Located} {e : JsonError}
    (h : b.takeTokens o ending s ts = ⟨b', .error e⟩) :
    ∃ taken rest ps s', ts = taken ++ rest ∧ s.Follows o taken ps s' ∧ b.pushAll ps = .ok b' ∧
      (rest = [] → ending.outcome s' = .error e) ∧
      ∀ t ∈ rest.head?, t.IsSpelled → e.PointsAt t := by
  induction ts generalizing b s with
  | nil =>
    rw [takeTokens, Intake.mk.injEq] at h
    obtain ⟨rfl, hending⟩ := h
    refine ⟨[], [], [], s, rfl, .nil s, rfl, fun _ => hending, fun t ht => ?_⟩
    exact absurd ht (Option.not_mem_none t)
  | cons t ts ih =>
    -- nothing has been taken of a text whose first token is at fault
    have hfirst : b.pushAll [] = .ok b' → (t.IsSpelled → e.PointsAt t) →
        ∃ taken rest ps s', t :: ts = taken ++ rest ∧ s.Follows o taken ps s' ∧
          b.pushAll ps = .ok b' ∧ (rest = [] → ending.outcome s' = .error e) ∧
          ∀ u ∈ rest.head?, u.IsSpelled → e.PointsAt u := by
      intro hpush ht
      refine ⟨[], t :: ts, [], s, rfl, .nil s, hpush, fun hnil => ?_, fun u hu => ?_⟩
      · exact absurd hnil (List.cons_ne_nil t ts)
      · rwa [← Option.some.inj hu]
    cases hadvance : s.advance o t with
    | error e' =>
      rw [takeTokens_of_error hadvance] at h
      cases h
      exact hfirst rfl fun ht => Progress.pointsAt_of_advance ht hadvance
    | ok r =>
      obtain ⟨s₁, q⟩ := r
      cases q with
      | none =>
        rw [takeTokens_of_none hadvance] at h
        obtain ⟨taken, rest, ps, s', rfl, hfollows, hpush, hend, hnext⟩ := ih h
        exact ⟨t :: taken, rest, ps, s', rfl, .cons hadvance hfollows, hpush, hend, hnext⟩
      | some p =>
        cases hp : b.push p with
        | error r =>
          rw [takeTokens_of_refused hadvance hp, keeps_push b p r hp] at h
          cases h
          exact hfirst rfl fun ht => pointsAt_of_eq ht rfl
        | ok b₁ =>
          rw [takeTokens_of_ok hadvance hp] at h
          obtain ⟨taken, rest, ps, s', rfl, hfollows, hpush, hend, hnext⟩ := ih h
          refine ⟨t :: taken, rest, p :: ps, s', rfl, .cons hadvance hfollows, ?_, hend, hnext⟩
          rw [pushAll_cons_ok hp, hpush]

/-- Where a text ends too early or has no further token, the error is there. -/
theorem place_of_ending {bytes : List UInt8} {s : Progress} {e : JsonError}
    (h : (tokensOf bytes).ending.outcome s = .error e) :
    e.span.offset = (lex true 0 bytes).stop.place := by
  change (lex true 0 bytes).stop.ending.outcome s = .error e at h
  cases hstop : (lex true 0 bytes).stop with
  | incomplete offset rest => exact absurd hstop (stop_lex_ne_incomplete 0 bytes offset rest)
  | finished offset =>
    rw [hstop] at h
    change s.finish offset = .error e at h
    unfold Progress.finish at h
    split at h <;> cases h
    rfl
  | error offset e' =>
    rw [hstop] at h
    cases h
    rfl

/-- What has been taken of a text that fails are the tokens that end before the error, which is at
a place in the text. -/
theorem exists_follows_of_pushBytes {b b' : Builder} {o : ReadOptions} {bytes : List UInt8}
    {e : JsonError} (h : b.pushBytes o bytes = ⟨b', .error e⟩) :
    e.span.offset ≤ bytes.length ∧ ∃ ps s', b.pushAll ps = .ok b' ∧
      Progress.start.Follows o ((tokensOf bytes).before e.span.offset) ps s' := by
  obtain ⟨taken, rest, ps, s', htokens, hfollows, hpush, hend, hnext⟩ :=
    exists_follows_of_takeTokens h
  obtain ⟨horder, hstop⟩ := inOrder_lex 0 bytes
  rw [Nat.zero_add] at hstop
  change (lex true 0 bytes).tokens = taken ++ rest at htokens
  rw [htokens] at horder
  obtain ⟨middle, hfront, hback⟩ := horder.exists_append
  have hbefore : e.span.offset ≤ bytes.length ∧ (tokensOf bytes).before e.span.offset = taken := by
    cases rest with
    | nil =>
      have hplace := place_of_ending (hend rfl)
      rw [hplace]
      exact ⟨hstop, TokenStream.before_eq htokens
        (fun t ht => Nat.le_trans (hfront.stop_le t ht) hback) nofun⟩
    | cons t more =>
      obtain ⟨hmiddle, ht, hmore⟩ := hback
      obtain ⟨hle, hlt⟩ := hnext t rfl ht
      refine ⟨?_, TokenStream.before_eq htokens
        (fun u hu => Nat.le_trans (hfront.stop_le u hu) (Nat.le_trans hmiddle hle)) ?_⟩
      · have := hmore.length_le
        omega
      · rintro _ ⟨⟩
        exact hlt
  rw [hbefore.2]
  exact ⟨hbefore.1, ps, s', hpush, hfollows⟩

/-- The tokens of a text before a place are spelled there, and there is a byte for each. -/
theorem before_tokensOf (bytes : List UInt8) (place : Nat) :
    ((tokensOf bytes).before place).length ≤ bytes.length ∧
      ∀ t ∈ (tokensOf bytes).before place, t.IsSpelled := by
  obtain ⟨horder, hstop⟩ := inOrder_lex 0 bytes
  have hsub : (tokensOf bytes).before place <+: (lex true 0 bytes).tokens :=
    List.takeWhile_prefix _
  refine ⟨?_, fun t ht => horder.isSpelled t (hsub.subset ht)⟩
  have hcount := horder.length_le
  have hlen := hsub.length_le
  omega

/-- **A builder with nothing open holds what its snapshot shows.** -/
theorem exists_holds_snapshot (o : Options) (calls : List Request)
    (ha : ((new o).run calls).isActive = false) (hlegible : ((new o).run calls).root.Legible)
    (hplain : Plain ((new o).run calls).parameters) (hlen : calls.length ≤ maxValues) :
    ∃ vals, ((new o).run calls).snapshot = .ok vals ∧
      ((new o).run calls).Holds False ⟨vals, []⟩ := by
  obtain ⟨⟨done, stack⟩, hholds⟩ := exists_holds_run o calls hlegible
  obtain rfl : stack = [] := hholds.fits.stack_eq_nil ha
  obtain ⟨vals, hvals, -, hreads⟩ := hholds.snapshot hplain (bounded_run o calls) hlen
  refine ⟨vals, hvals, hholds.sound, ?_⟩
  exact hholds.fits.reread hholds.sound hplain hreads (Form.describes_of_toValues hvals)

/-- **A text that fails leaves the values that were complete.**  In every state that calls come
to, if no container is open:  the error is at a place in the text; the tokens that end before it
are those of some values, and then tokens at whose front no value is complete; as many elements
as there are values have come to the builder; and its snapshot shows the elements that it showed
before, and then the values, each of them as the form that the builder has now restores it.  The
text of the builder has to be UTF-8, nobody may annotate the root as strings or name it as records,
and there has to be memory for as many values as there are calls and bytes. -/
theorem pushBytes_error (o : Options) (calls : List Request) (ro : ReadOptions)
    (bytes : List UInt8) (b' : Builder) (e : JsonError)
    (ha : ((new o).run calls).isActive = false) (hlegible : ((new o).run calls).root.Legible)
    (hplain : Plain ((new o).run calls).parameters)
    (hlen : calls.length + bytes.length ≤ maxValues)
    (h : ((new o).run calls).pushBytes ro bytes = ⟨b', .error e⟩) :
    let b := (new o).run calls
    e.span.offset ≤ bytes.length ∧ ∃ js vs rest old kept added,
      ((tokensOf bytes).before e.span.offset).map Located.token = js.flatMap Json.tokens ++ rest ∧
      (∀ j : Json, ¬ j.tokens <+: rest) ∧ Json.itemValues? ro js = some vs ∧
      b'.length = b.length + js.length ∧ b.snapshot = .ok old ∧
      b'.snapshot = .ok (kept ++ added) ∧
      Forall₂ (b'.layout defaultPartition).form.Restores old kept ∧
      Forall₂ (b'.layout defaultPartition).form.Restores vs added := by
  intro b
  obtain ⟨hplace, ps, s', hpush, hfollows⟩ := exists_follows_of_pushBytes h
  obtain ⟨hcount, hspelled⟩ := before_tokensOf bytes e.span.offset
  obtain ⟨js, vs, rest, htokens, hrest, hvs, hassembled⟩ := hfollows.exists_complete fun t ht =>
    (hspelled t ht).imp fun _ => And.left
  obtain ⟨old, hold, hholds⟩ := exists_holds_snapshot o calls ha hlegible hplain (by omega)
  -- the builder goes on from its snapshot
  obtain ⟨stack, hstack⟩ := hassembled old
  have hholds' := hholds.pushAll hfollows.isText hpush
  rw [hstack] at hholds'
  obtain ⟨-, hparameters⟩ := pushAll_eq_ok hpush
  have hroom : calls.length + ps.length ≤ maxValues := by
    have := hfollows.length_le
    omega
  obtain ⟨vals, hvals, hlength, hreads⟩ :=
    hholds'.snapshot (hparameters ▸ hplain) (bounded_run_pushAll calls hpush) hroom
  have hback := (restores_of_snapshot hholds'.sound hvals hreads).flip
  have hkept := List.forall₂_take_append _ _ _ hback
  have hadded := List.forall₂_drop_append _ _ _ hback
  refine ⟨hplace, js, vs, rest, old, vals.take old.length, vals.drop old.length, htokens, hrest,
    hvs, ?_, hold, ?_, hkept.flip, hadded.flip⟩
  · have hb : b.length = old.length := hholds.fits.length
    have hb' : b'.length = (old ++ vs).length := hholds'.fits.length
    rw [hb, hb', List.length_append, Json.length_itemValues? hvs]
  · rw [hvals, List.take_append_drop]

/-- The text of a number, and of a list that is not closed. -/
theorem tokensOf_openList : tokensOf [0x31, 0x32, 0x20, 0x5b, 0x33]
    = ⟨[⟨.number [0x31, 0x32] .unsigned, ⟨0, 2⟩⟩, ⟨.arrayStart, ⟨3, 1⟩⟩,
        ⟨.number [0x33] .unsigned, ⟨4, 1⟩⟩], .finished 5⟩ := by
  have htwelve : scanToken true [0x31, 0x32, 0x20, 0x5b, 0x33]
      = .token (.number [0x31, 0x32] .unsigned) 0 2 := rfl
  have hopen : scanToken true [0x20, 0x5b, 0x33] = .token .arrayStart 1 1 := rfl
  have hthree : scanToken true [0x33] = .token (.number [0x33] .unsigned) 0 1 := rfl
  have hend : scanToken true [] = .finished 0 := rfl
  simp [tokensOf, lex_of_token htwelve, lex_of_token hopen, lex_of_token hthree,
    lex_of_finished hend, Stop.ending]

/-- The number comes to a real, and the item of the list is not seen. -/
theorem pushBytes_error_openList :
    let b := (new {}).run [.push (.real .one)]
    ∃ b' js vs old kept added, b.pushBytes {} [0x31, 0x32, 0x20, 0x5b, 0x33]
        = ⟨b', .error ⟨.unexpectedEof .commaOrBracket, ⟨5, 0⟩⟩⟩ ∧
      js.length = 1 ∧ Json.itemValues? {} js = some vs ∧ b'.length = 2 ∧
      b.snapshot = .ok old ∧ b'.snapshot = .ok (kept ++ added) ∧
      Forall₂ (b'.layout defaultPartition).form.Restores old kept ∧
      Forall₂ (b'.layout defaultPartition).form.Restores vs added := by
  intro b
  obtain ⟨b', hpush, hlength⟩ : ∃ b', b.pushBytes {} [0x31, 0x32, 0x20, 0x5b, 0x33]
      = ⟨b', .error ⟨.unexpectedEof .commaOrBracket, ⟨5, 0⟩⟩⟩ ∧ b'.length = 2 := by
    rw [pushBytes, tokensOf_openList]
    exact ⟨_, rfl, rfl⟩
  have hlegible : (Column.float64 #[.one]).Legible := .intro trivial (List.forall_mem_nil _)
  obtain ⟨-, js, vs, rest, old, kept, added, -, -, hvs, hgrown, hold, hsnapshot, hkept, hadded⟩ :=
    pushBytes_error {} [.push (.real .one)] {} _ b' _ rfl hlegible plain_nil (by decide) hpush
  have hb : b.length = 1 := rfl
  refine ⟨b', js, vs, old, kept, added, hpush, ?_, hvs, hlength, hold, hsnapshot, hkept, hadded⟩
  change b'.length = b.length + js.length at hgrown
  omega

end Columnar.Builder
