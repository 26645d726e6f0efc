import Columnar.Proofs.Holding
import Columnar.Proofs.Ingestion
import Columnar.Proofs.Whole

/-!
# Texts that break off

The tokens that have been taken of a text are those of complete values, and then those of a value
that is not complete: after each of the latter some container is open.  What is open can be
counted from the tokens alone, and from the pushes alone.  So nothing that the latter tokens stand
for completes a value, and none of them is the end of one.

A member is pushed with the setting for settled fields, which what a text means does not ask for.
So the setting may be taken as switched off.

## Main definitions

* `Token.depthsAfter`, `Token.StaysOpen` — how many containers are open after tokens.
* `Push.unchecked`, `ReadOptions.unchecked` — the setting for settled fields switched off.
* `Progress.Follows` — the tokens from one place in a text to another, and their pushes.

## Main results

* `Progress.moves_of_advance` — **a token and its push open and close the same containers.**
* `Json.depthsAfter_tokens` — the tokens of a value close what they open.
* `Progress.Follows.exists_complete` — **what has been followed is complete values, and the start
  of one more.**
-/

namespace Columnar

/-! ### Open containers -/

namespace Token

/-- The number of open containers after a token. -/
def depthAfter (depth : Nat) : Token → Nat
  | objectStart | arrayStart => depth + 1
  | objectEnd | arrayEnd => depth - 1
  | _ => depth

/-- The number of open containers after tokens one after another. -/
def depthsAfter (depth : Nat) (ts : List Token) : Nat := ts.foldl depthAfter depth

/-- Some container is open after every one of the tokens. -/
def StaysOpen : Nat → List Token → Prop
  | _, [] => True
  | depth, t :: ts => t.depthAfter depth ≠ 0 ∧ StaysOpen (t.depthAfter depth) ts

variable {depth : Nat} {t : Token} {ts us : List Token}

@[simp] theorem depthsAfter_nil : depthsAfter depth [] = depth := rfl

@[simp] theorem depthsAfter_cons :
    depthsAfter depth (t :: ts) = depthsAfter (t.depthAfter depth) ts := rfl

@[simp] theorem depthsAfter_append :
    depthsAfter depth (ts ++ us) = depthsAfter (depthsAfter depth ts) us :=
  List.foldl_append

/-- Where containers stay open, no front closes them all. -/
theorem StaysOpen.depthsAfter_ne_zero (h : StaysOpen depth (ts ++ us)) (hne : ts ≠ []) :
    depthsAfter depth ts ≠ 0 := by
  induction ts generalizing depth with
  | nil => exact absurd rfl hne
  | cons t ts ih =>
    obtain ⟨hopen, hrest⟩ := h
    rw [depthsAfter_cons]
    cases ts with
    | nil => exact hopen
    | cons u ts => exact ih hrest (List.cons_ne_nil u ts)

/-- Behind the last place where nothing is open, containers stay open. -/
theorem exists_staysOpen (depth : Nat) (ts : List Token) : StaysOpen depth ts ∨
    ∃ us vs, ts = us ++ vs ∧ depthsAfter depth us = 0 ∧ StaysOpen 0 vs := by
  induction ts generalizing depth with
  | nil => exact .inl trivial
  | cons t ts ih =>
    rcases ih (t.depthAfter depth) with hopen | ⟨us, vs, rfl, hzero, hopen⟩
    · by_cases hzero : t.depthAfter depth = 0
      · exact .inr ⟨[t], ts, rfl, hzero, hzero ▸ hopen⟩
      · exact .inl ⟨hzero, hopen⟩
    · exact .inr ⟨t :: us, vs, rfl, hzero, hopen⟩

end Token

namespace Json

open Token

/-- Separators and pieces that close what they open. -/
theorem depthsAfter_intercalate {tss : List (List Token)} {depth : Nat}
    (h : ∀ ts ∈ tss, depthsAfter depth ts = depth) :
    depthsAfter depth ([.comma].intercalate tss) = depth := by
  induction tss with
  | nil => rfl
  | cons ts tss ih =>
    obtain ⟨hts, htss⟩ := List.forall_mem_cons.mp h
    cases tss with
    | nil => simpa using hts
    | cons us tss =>
      rw [List.intercalate_cons_cons, depthsAfter_append, depthsAfter_append, hts]
      exact ih htss

/-- What stands in a container, and the marks around it. -/
theorem depthsAfter_enclosed {first last : Token} {ts : List Token} {depth : Nat}
    (hfirst : first.depthAfter depth = depth + 1) (hlast : last.depthAfter (depth + 1) = depth)
    (h : depthsAfter (depth + 1) ts = depth + 1) :
    depthsAfter depth (first :: ts ++ [last]) = depth := by
  rw [List.cons_append, depthsAfter_cons, hfirst, depthsAfter_append, h]
  exact hlast

mutual

/-- The tokens of a value close what they open. -/
theorem depthsAfter_tokens : ∀ (j : Json) (depth : Nat), depthsAfter depth j.tokens = depth
  | .null, _ | .bool _, _ | .number _, _ | .string _, _ => rfl
  | .array items, depth =>
    depthsAfter_enclosed rfl rfl
      (depthsAfter_intercalate fun ts hts => depthsAfter_itemTokens items (depth + 1) ts hts)
  | .object members, depth =>
    depthsAfter_enclosed rfl rfl
      (depthsAfter_intercalate fun ts hts => depthsAfter_memberTokens members (depth + 1) ts hts)
termination_by structural j => j

theorem depthsAfter_itemTokens : ∀ (items : List Json) (depth : Nat),
    ∀ ts ∈ itemTokens items, depthsAfter depth ts = depth
  | [], _ => nofun
  | j :: js, depth =>
    List.forall_mem_cons.mpr ⟨depthsAfter_tokens j depth, depthsAfter_itemTokens js depth⟩
termination_by structural items => items

theorem depthsAfter_memberTokens : ∀ (members : List (JsonString × Json)) (depth : Nat),
    ∀ ts ∈ memberTokens members, depthsAfter depth ts = depth
  | [], _ => nofun
  | (_, j) :: rest, depth =>
    List.forall_mem_cons.mpr ⟨depthsAfter_tokens j depth, depthsAfter_memberTokens rest depth⟩
termination_by structural members => members

end

/-- Where containers stay open, no value is complete. -/
theorem not_isPrefix_of_staysOpen {ts : List Token} (h : StaysOpen 0 ts) (j : Json) :
    ¬ j.tokens <+: ts := by
  rintro ⟨rest, rfl⟩
  have hne : j.tokens ≠ [] := by
    cases j <;> nofun
  exact h.depthsAfter_ne_zero hne (j.depthsAfter_tokens 0)

end Json

/-! ### Settled fields -/

/-- A push that may select a field that is not settled. -/
def Push.unchecked : Push → Push
  | .field key _ => .field key false
  | p => p

/-- The settings without a check for settled fields. -/
def ReadOptions.unchecked (o : ReadOptions) : ReadOptions := { o with check := false }

namespace Json

mutual

/-- What a value means does not ask for settled fields. -/
theorem value?_unchecked (o : ReadOptions) : ∀ j : Json, j.value? o.unchecked = j.value? o
  | .null | .bool _ | .number _ | .string _ => rfl
  | .array items => by rw [value?, value?, itemValues?_unchecked o items]
  | .object members => by rw [value?, value?, memberValues?_unchecked o members]
termination_by structural j => j

theorem itemValues?_unchecked (o : ReadOptions) :
    ∀ js : List Json, itemValues? o.unchecked js = itemValues? o js
  | [] => rfl
  | j :: js => by rw [itemValues?, itemValues?, value?_unchecked o j, itemValues?_unchecked o js]
termination_by structural js => js

theorem memberValues?_unchecked (o : ReadOptions) :
    ∀ members : List (JsonString × Json),
      memberValues? o.unchecked members = memberValues? o members
  | [] => rfl
  | (key, j) :: rest => by
    rw [memberValues?, memberValues?, value?_unchecked o j, memberValues?_unchecked o rest]
termination_by structural members => members

end

end Json

namespace Assembly

theorem assemble_unchecked (stack : List Unfinished) (p : Push) :
    assemble stack p.unchecked = assemble stack p := by
  induction stack with
  | nil => cases p <;> rfl
  | cons f inner ih =>
    rw [assemble, assemble, ih]
    cases p <;> first | rfl | (cases f <;> rfl)

theorem takeAll_unchecked (s : Assembly) (ps : List Push) :
    s.takeAll (ps.map Push.unchecked) = s.takeAll ps := by
  induction ps generalizing s with
  | nil => rfl
  | cons p ps ih =>
    have htake : s.take p.unchecked = s.take p := by
      rw [take, take, assemble_unchecked]
    rw [List.map_cons, takeAll_cons, takeAll_cons, htake, ih]

end Assembly

/-! ### One token -/

/-- What a token that is taken does: it opens and closes the same containers as its push, the push
is valid text if it is text, and the check for settled fields changes nothing but the push. -/
structure Progress.Moves (o : ReadOptions) (t : Located) (s s' : Progress) (q : Option Push) :
    Prop where
  /-- The containers after the token. -/
  token : s'.frames.length = t.token.depthAfter s.frames.length
  /-- The containers after the push. -/
  push : s'.frames.length = Push.depthsAfter s.frames.length q.toList
  /-- The text. -/
  isText : ∀ p ∈ q, p.IsText
  /-- Without the check. -/
  unchecked : s.advance o.unchecked t = .ok (s', q.map Push.unchecked)

/-- The push of a token that is a whole value. -/
theorem ReadOptions.flat_of_scalarPush {o : ReadOptions} {expected : Expected} {t : Located}
    {p : Push} (h : o.scalarPush expected t = .ok p) :
    p.value?.isSome ∧ p.IsText ∧ ∀ depth, t.token.depthAfter depth = depth := by
  have htext : ∀ text, (o.textPush text).value?.isSome ∧ (o.textPush text).IsText := by
    intro text
    unfold textPush
    cases o.nonFinite? text with
    | some x => exact ⟨rfl, trivial⟩
    | none => exact ⟨rfl, congrArg Utf8.encodeString (Utf8.lossy_encodeString text)⟩
  have hnumber : ∀ {n p}, o.numberPush? n = some p → p.value?.isSome ∧ p.IsText := by
    intro n p hp
    unfold numberPush? at hp
    cases n with
    | int | real =>
      cases hp
      exact ⟨rfl, trivial⟩
    | large x =>
      cases ho : o.integerOverflow <;> rw [ho] at hp <;> cases hp
      exact ⟨rfl, trivial⟩
  obtain ⟨token, span⟩ := t
  cases token with
  | null | bool =>
    cases h
    exact ⟨rfl, trivial, fun _ => rfl⟩
  | string content hasEscapes =>
    simp only [scalarPush] at h
    split at h
    · next text _ =>
      cases h
      exact ⟨(htext text).1, (htext text).2, fun _ => rfl⟩
    · cases h
  | number literal shape =>
    simp only [scalarPush] at h
    split at h
    · split at h
      · next hp =>
        cases h
        exact ⟨(hnumber hp).1, (hnumber hp).2, fun _ => rfl⟩
      · cases h
    · cases h
  | _ => cases h

namespace Progress

variable {o : ReadOptions} {s s' : Progress} {t : Located} {q : Option Push}

theorem moves_of_advanceValue (hs : s.advance o.unchecked t = s.advanceValue o.unchecked t)
    (h : s.advanceValue o t = .ok (s', q)) : Moves o t s s' q := by
  have hsame : s.advance o.unchecked t = .ok (s', q) := hs.trans h
  unfold advanceValue at h
  split at h
  · cases h
  · split at h
    · next ht =>
      cases h
      exact ⟨by rw [ht]; rfl, rfl, by rintro p ⟨⟩; trivial, hsame⟩
    · next ht =>
      cases h
      exact ⟨by rw [ht]; rfl, rfl, by rintro p ⟨⟩; trivial, hsame⟩
    · cases hpush : o.scalarPush s.expected t with
      | error e =>
        rw [hpush] at h
        cases h
      | ok p =>
        rw [hpush] at h
        cases h
        obtain ⟨hvalue, htext, hdepth⟩ := ReadOptions.flat_of_scalarPush hpush
        refine ⟨?_, ?_, by rintro _ ⟨⟩; exact htext, ?_⟩
        · rw [length_frames_complete, hdepth]
        · rw [length_frames_complete]
          cases p <;> first | rfl | cases hvalue
        · rw [hsame]
          cases p <;> first | rfl | cases hvalue

theorem moves_of_advanceKey {outer : List Frame} (hlen : s.frames.length = outer.length + 1)
    (hs : s.advance o.unchecked t = s.advanceKey o.unchecked outer t)
    (h : s.advanceKey o outer t = .ok (s', q)) : Moves o t s s' q := by
  unfold advanceKey at h
  split at h
  · next content hasEscapes ht =>
    split at h
    · next key hkey =>
      cases h
      refine ⟨by rw [ht]; exact hlen.symm, hlen.symm, by rintro p ⟨⟩; trivial, ?_⟩
      rw [hs, advanceKey, ht]
      simp only [hkey]
      rfl
    · cases h
  · cases h

/-- A mark that closes a container completes it in the one around it. -/
theorem moves_of_close {f : Frame} {outer : List Frame} {count : Nat} {p : Push}
    (hp : p.closes?.isSome) (ht : t.token.depthAfter (outer.length + 1) = outer.length)
    (h : advance o.unchecked ⟨f :: outer, count⟩ t = .ok (complete ⟨outer, count⟩, some p)) :
    Moves o t ⟨f :: outer, count⟩ (complete ⟨outer, count⟩) (some p) := by
  refine ⟨?_, ?_, ?_, ?_⟩
  · rw [length_frames_complete]
    exact ht.symm
  · rw [length_frames_complete]
    exact (Push.depthAfter_close hp outer.length).symm
  · rintro _ ⟨⟩
    cases p <;> trivial
  · rw [h]
    cases p <;> first | rfl | cases hp

/-- **A token and its push open and close the same containers.** -/
theorem moves_of_advance (h : s.advance o t = .ok (s', q)) : Moves o t s s' q := by
  obtain ⟨frames, count⟩ := s
  obtain ⟨token, span⟩ := t
  match frames with
  | [] | .list .item :: outer | .record .value :: outer => exact moves_of_advanceValue rfl h
  | .list .start :: outer =>
    cases token with
    | arrayEnd =>
      cases h
      exact moves_of_close rfl rfl rfl
    | _ => exact moves_of_advanceValue rfl h
  | .list .behindItem :: outer =>
    cases token with
    | arrayEnd =>
      cases h
      exact moves_of_close rfl rfl rfl
    | comma =>
      cases h
      exact ⟨rfl, rfl, nofun, rfl⟩
    | _ => cases h
  | .record .start :: outer =>
    cases token with
    | objectEnd =>
      cases h
      exact moves_of_close rfl rfl rfl
    | _ => exact moves_of_advanceKey rfl rfl h
  | .record .key :: outer => exact moves_of_advanceKey rfl rfl h
  | .record .colon :: outer =>
    cases token with
    | colon =>
      cases h
      exact ⟨rfl, rfl, nofun, rfl⟩
    | _ => cases h
  | .record .behindValue :: outer =>
    cases token with
    | objectEnd =>
      cases h
      exact moves_of_close rfl rfl rfl
    | comma =>
      cases h
      exact ⟨rfl, rfl, nofun, rfl⟩
    | _ => cases h

end Progress

/-! ### Many tokens -/

namespace Assembly

/-- A value goes into the container that is still open. -/
theorem fst_assemble_of_ne_nil {stack : List Unfinished} {p : Push}
    (h : (assemble stack p).2 ≠ []) : (assemble stack p).1 = none := by
  cases stack with
  | nil => cases p <;> first | rfl | exact absurd rfl h
  | cons f inner =>
    rw [assemble] at h ⊢
    split
    · next hclose =>
      rw [if_pos hclose] at h
      exact absurd rfl h
    · split <;> rfl

/-- Where a container stays open, nothing is completed. -/
theorem take_of_ne_nil {done : List Value} {stack : List Unfinished} {p : Push}
    (h : Builder.depthAfter p stack.length ≠ 0) :
    take ⟨done, stack⟩ p = ⟨done, (assemble stack p).2⟩ := by
  rw [← length_assemble, ne_eq, List.length_eq_zero_iff] at h
  rw [take, fst_assemble_of_ne_nil h]
  simp

end Assembly

namespace Progress

variable {o : ReadOptions} {s s' : Progress}

/-- A text is followed from one place to another, and its tokens stand for pushes. -/
inductive Follows (o : ReadOptions) : Progress → List Located → List Push → Progress → Prop
  /-- No token. -/
  | nil (s : Progress) : Follows o s [] [] s
  /-- A token, and what follows. -/
  | cons {s s₁ s' : Progress} {t : Located} {q : Option Push} {ts : List Located} {ps : List Push}
      (h : s.advance o t = .ok (s₁, q)) (hrest : Follows o s₁ ts ps s') :
      Follows o s (t :: ts) (q.toList ++ ps) s'

namespace Follows

variable {ts us : List Located} {ps : List Push}

/-- A token stands for one push at most. -/
theorem length_le (h : Follows o s ts ps s') : ps.length ≤ ts.length := by
  induction h with
  | nil => exact Nat.le_refl 0
  | @cons _ _ _ _ q _ _ _ _ ih =>
    rw [List.length_append, List.length_cons]
    cases q <;> simp <;> omega

theorem isText (h : Follows o s ts ps s') : ∀ p ∈ ps, p.IsText := by
  induction h with
  | nil => nofun
  | cons h _ ih =>
    intro p hp
    rcases List.mem_append.mp hp with hp | hp
    · exact (moves_of_advance h).isText p (Option.mem_toList.mp hp)
    · exact ih p hp

theorem length_frames (h : Follows o s ts ps s') :
    s'.frames.length = Token.depthsAfter s.frames.length (ts.map Located.token) := by
  induction h with
  | nil => rfl
  | cons h _ ih => rw [ih, (moves_of_advance h).token, List.map_cons, Token.depthsAfter_cons]

/-- What is followed in one go is followed in two. -/
theorem exists_append (h : Follows o s (ts ++ us) ps s') :
    ∃ s₁ front back, ps = front ++ back ∧ Follows o s ts front s₁ ∧ Follows o s₁ us back s' := by
  induction ts generalizing s ps with
  | nil => exact ⟨s, [], ps, rfl, .nil s, h⟩
  | cons t ts ih =>
    cases h with
    | @cons _ _ _ _ q _ _ h hrest =>
      obtain ⟨s₁, front, back, rfl, hfront, hback⟩ := ih hrest
      exact ⟨s₁, q.toList ++ front, back, (List.append_assoc _ _ _).symm, .cons h hfront, hback⟩

/-- Without the check for settled fields a text is followed just so. -/
theorem unchecked (h : Follows o s ts ps s') :
    Follows o.unchecked s ts (ps.map Push.unchecked) s' := by
  induction h with
  | nil s => exact .nil s
  | @cons _ _ _ _ q _ _ h _ ih =>
    have hstep := Follows.cons (moves_of_advance h).unchecked ih
    cases q <;> exact hstep

/-- What is demanded behind tokens that have been followed is demanded behind these. -/
theorem holds (hcheck : o.check = false) (h : Follows o s ts ps s')
    (hs : s.frames.length ≤ o.maxDepth) (hspells : ∀ t ∈ ts, ∃ text, Spells t.token text)
    {us : List Token} {more : List Push} {n : Nat} (hmore : Demand.Holds o s' us more n) :
    Demand.Holds o s (ts.map Located.token ++ us) (ps ++ more) n := by
  induction h with
  | nil => exact hmore
  | @cons s s₁ s' t q ts ps h _ ih =>
    obtain ⟨⟨text, ht⟩, hrest⟩ := List.forall_mem_cons.mp hspells
    have hholds := ih (length_frames_advance h hs) hrest hmore
    rw [List.map_cons, List.cons_append, Demand.holds_cons_iff hcheck hs ht, h]
    cases q with
    | none => exact hholds
    | some p => exact ⟨ps ++ more, rfl, hholds⟩

/-- Where a container stays open, the pushes complete nothing. -/
theorem takeAll_of_staysOpen (h : Follows o s ts ps s') {done : List Value}
    {stack : List Unfinished} (hlen : stack.length = s.frames.length)
    (hopen : Token.StaysOpen s.frames.length (ts.map Located.token)) :
    ∃ stack', Assembly.takeAll ⟨done, stack⟩ ps = ⟨done, stack'⟩ := by
  induction h generalizing stack with
  | nil => exact ⟨stack, rfl⟩
  | @cons s s₁ s' t q ts ps h _ ih =>
    obtain ⟨hne, hrest⟩ := hopen
    have hmoves := moves_of_advance h
    rw [← hmoves.token] at hne hrest
    cases q with
    | none => exact ih (hlen.trans hmoves.push.symm) hrest
    | some p =>
      have hpush : s₁.frames.length = Builder.depthAfter p stack.length := by
        rw [hlen]
        exact hmoves.push
      rw [hpush] at hne
      rw [Option.toList_some, List.singleton_append, Assembly.takeAll_cons,
        Assembly.take_of_ne_nil hne]
      exact ih ((length_assemble stack p).trans hpush.symm) hrest

/-- **What has been followed is complete values, and the start of one more**, of which nothing is
assembled but what is under way. -/
theorem exists_complete (h : Follows o .start ts ps s')
    (hspells : ∀ t ∈ ts, ∃ text, Spells t.token text) :
    ∃ js vs rest, ts.map Located.token = js.flatMap Json.tokens ++ rest ∧
      (∀ j : Json, ¬ j.tokens <+: rest) ∧ Json.itemValues? o js = some vs ∧
      ∀ done, ∃ stack, Assembly.takeAll ⟨done, []⟩ ps = ⟨done ++ vs, stack⟩ := by
  -- the tokens up to the last place where nothing is open, and those behind it
  obtain ⟨front, back, hts, hzero, hopen⟩ : ∃ us vs, ts.map Located.token = us ++ vs ∧
      Token.depthsAfter 0 us = 0 ∧ Token.StaysOpen 0 vs := by
    rcases Token.exists_staysOpen 0 (ts.map Located.token) with hopen | hsplit
    · exact ⟨[], _, rfl, rfl, hopen⟩
    · exact hsplit
  obtain ⟨ts, us, rfl, rfl, rfl⟩ := List.map_eq_append_iff.mp hts
  obtain ⟨s₁, front, back, rfl, hfront, hback⟩ := h.exists_append
  have hlen : s₁.frames.length = 0 := hfront.length_frames.trans hzero
  have hnil : s₁.frames = [] := List.length_eq_zero_iff.mp hlen
  -- the front is what is demanded of a text that ends there
  have hholds := hfront.unchecked.holds rfl (Nat.zero_le _)
    (fun t ht => hspells t (List.mem_append_left _ ht))
    (Demand.holds_nil_iff.mpr ⟨hnil, rfl, rfl⟩)
  rw [List.append_nil, List.append_nil] at hholds
  obtain ⟨js, vs, hvs, -, htokens, hpushes, -⟩ := hholds
  rw [Json.itemValues?_unchecked] at hvs
  refine ⟨js, vs, us.map Located.token, by rw [hts, htokens],
    Json.not_isPrefix_of_staysOpen hopen, hvs, fun done => ?_⟩
  rw [Assembly.takeAll_append, ← Assembly.takeAll_unchecked _ front, hpushes,
    Assembly.takeAll_itemPushes]
  exact hback.takeAll_of_staysOpen hlen.symm (hlen.symm ▸ hopen)

end Follows

end Progress

end Columnar
