import Columnar.Proofs.Extending
import Columnar.Proofs.Json.Texts

/-!
# What has to follow in a text

A text that has been followed up to some place, with containers open there, demands what has to
follow: the rest of the innermost container, that of the one around it, and so on, and then values
one after another.  A token is taken exactly if it is the first of what is demanded, and leaves the
rest to be demanded.

## Main definitions

* `Demand.Behind` — what may follow a complete value.
* `Demand.Holds` — what may follow.

## Main results

* `Demand.holds_cons_iff` — **a token is taken exactly if it is demanded.**
* `Demand.holds_nil_iff` — nothing is demanded only outside of all containers.
-/

namespace Columnar

/-- The rest of a list of which a first piece has been taken off. -/
theorem intercalate_cons_eq_flatMap {α : Type} (sep : List α) (xs : List α) (xss : List (List α)) :
    sep.intercalate (xs :: xss) = xs ++ xss.flatMap (sep ++ ·) := by
  induction xss generalizing xs with
  | nil => simp
  | cons ys xss ih =>
    rw [List.intercalate_cons_cons, ih, List.flatMap_cons, List.append_assoc, List.append_assoc]

namespace Demand

open Json

variable {o : ReadOptions}

/-- Values one after another may follow, and are `n` values together with `count` others. -/
def Values (o : ReadOptions) (count : Nat) (ts : List Token) (ps : List Push) (n : Nat) : Prop :=
  ∃ js vs, itemValues? o js = some vs ∧ Value.itemsDepth vs ≤ o.maxDepth ∧
    ts = js.flatMap tokens ∧ ps = Value.itemPushes vs ∧ n = count + js.length

/-- What may follow a complete value in some open containers, behind `count` values outside of
them: the rest of the innermost container, and of each one around it, and then values. -/
def Behind (o : ReadOptions) : List Frame → Nat → List Token → List Push → Nat → Prop
  | [], count, ts, ps, n => Values o (count + 1) ts ps n
  | .list _ :: outer, count, ts, ps, n =>
    ∃ js vs rest more, itemValues? o js = some vs ∧
      outer.length + 1 + Value.itemsDepth vs ≤ o.maxDepth ∧
      ts = (itemTokens js).flatMap ([.comma] ++ ·) ++ .arrayEnd :: rest ∧
      ps = Value.itemPushes vs ++ .endList :: more ∧ Behind o outer count rest more n
  | .record _ :: outer, count, ts, ps, n =>
    ∃ members fields rest more, memberValues? o members = some fields ∧
      outer.length + 1 + Value.fieldsDepth fields ≤ o.maxDepth ∧
      ts = (memberTokens members).flatMap ([.comma] ++ ·) ++ .objectEnd :: rest ∧
      ps = Value.fieldPushes fields ++ .endRecord :: more ∧ Behind o outer count rest more n

/-- A value, and then what may follow it. -/
def ValueFirst (o : ReadOptions) (frames : List Frame) (count : Nat) (ts : List Token)
    (ps : List Push) (n : Nat) : Prop :=
  ∃ j v rest more, value? o j = some v ∧ frames.length + v.depth ≤ o.maxDepth ∧
    ts = j.tokens ++ rest ∧ ps = v.pushes ++ more ∧ Behind o frames count rest more n

/-- A member of an object, and then what may follow it. -/
def MemberFirst (o : ReadOptions) (outer : List Frame) (count : Nat) (ts : List Token)
    (ps : List Push) (n : Nat) : Prop :=
  ∃ key text rest more, JsonString.text? key = some text ∧ ts = key.token :: .colon :: rest ∧
    ps = .field text o.check :: more ∧ ValueFirst o (.record .value :: outer) count rest more n

/-- What may follow where a text has been followed to. -/
def Holds (o : ReadOptions) : Progress → List Token → List Push → Nat → Prop
  | ⟨[], count⟩, ts, ps, n => Values o count ts ps n
  | ⟨.list .start :: outer, count⟩, ts, ps, n =>
    (∃ rest more, ts = .arrayEnd :: rest ∧ ps = .endList :: more ∧
      Behind o outer count rest more n) ∨ ValueFirst o (.list .start :: outer) count ts ps n
  | ⟨.list .item :: outer, count⟩, ts, ps, n => ValueFirst o (.list .item :: outer) count ts ps n
  | ⟨.list .behindItem :: outer, count⟩, ts, ps, n =>
    Behind o (.list .behindItem :: outer) count ts ps n
  | ⟨.record .start :: outer, count⟩, ts, ps, n =>
    (∃ rest more, ts = .objectEnd :: rest ∧ ps = .endRecord :: more ∧
      Behind o outer count rest more n) ∨ MemberFirst o outer count ts ps n
  | ⟨.record .key :: outer, count⟩, ts, ps, n => MemberFirst o outer count ts ps n
  | ⟨.record .colon :: outer, count⟩, ts, ps, n =>
    ∃ rest, ts = .colon :: rest ∧ ValueFirst o (.record .value :: outer) count rest ps n
  | ⟨.record .value :: outer, count⟩, ts, ps, n =>
    ValueFirst o (.record .value :: outer) count ts ps n
  | ⟨.record .behindValue :: outer, count⟩, ts, ps, n =>
    Behind o (.record .behindValue :: outer) count ts ps n

/-- What may follow a token that has been followed. -/
def Leads (o : ReadOptions) (ts : List Token) (ps : List Push) (n : Nat) : Progress.Advance → Prop
  | .error _ => False
  | .ok (s, none) => Holds o s ts ps n
  | .ok (s, some p) => ∃ more, ps = p :: more ∧ Holds o s ts more n

variable {frames outer : List Frame} {count n : Nat} {ts : List Token} {ps : List Push}

/-- A complete value leaves what may follow it. -/
theorem holds_complete (s : Progress) :
    Holds o s.complete ts ps n ↔ Behind o s.frames s.count ts ps n := by
  obtain ⟨frames, count⟩ := s
  cases frames with
  | nil => exact Iff.rfl
  | cons f outer =>
    cases f <;> exact Iff.rfl

/-! ### The rest of a container -/

theorem values_cons_iff {t : Token} :
    Values o count (t :: ts) ps n ↔ ValueFirst o [] count (t :: ts) ps n := by
  constructor
  · rintro ⟨js, vs, hvs, hdepth, hts, rfl, rfl⟩
    cases js with
    | nil => cases hts
    | cons j js =>
      obtain ⟨v, vs', hv, hvs', rfl⟩ := itemValues?_cons_iff.mp hvs
      rw [Value.itemsDepth, Nat.max_le] at hdepth
      refine ⟨j, v, _, _, hv, ?_, hts, rfl, js, vs', hvs', hdepth.2, rfl, rfl, ?_⟩
      · rw [List.length_nil, Nat.zero_add]
        exact hdepth.1
      · rw [List.length_cons]
        omega
  · rintro ⟨j, v, rest, more, hv, hdepth, hts, rfl, js, vs, hvs, hdepths, rfl, rfl, rfl⟩
    rw [List.length_nil, Nat.zero_add] at hdepth
    refine ⟨j :: js, v :: vs, itemValues?_cons_iff.mpr ⟨v, vs, hv, hvs, rfl⟩, ?_, hts, rfl, ?_⟩
    · rw [Value.itemsDepth]
      exact Nat.max_le.mpr ⟨hdepth, hdepths⟩
    · rw [List.length_cons]
      omega

theorem behind_list_iff {place : ListPlace} {t : Token} :
    Behind o (.list place :: outer) count (t :: ts) ps n ↔
      (t = .arrayEnd ∧ outer.length < o.maxDepth ∧
        ∃ more, ps = .endList :: more ∧ Behind o outer count ts more n) ∨
      (t = .comma ∧ ValueFirst o (.list .item :: outer) count ts ps n) := by
  constructor
  · rintro ⟨js, vs, rest, more, hvs, hdepth, hts, rfl, hbehind⟩
    cases js with
    | nil =>
      cases hvs
      cases hts
      exact .inl ⟨rfl, by omega, more, rfl, hbehind⟩
    | cons j js =>
      obtain ⟨v, vs', hv, hvs', rfl⟩ := itemValues?_cons_iff.mp hvs
      rw [Value.itemsDepth] at hdepth
      simp only [itemTokens, List.flatMap_cons, List.cons_append, List.nil_append,
        List.append_assoc, List.cons.injEq] at hts
      obtain ⟨rfl, rfl⟩ := hts
      refine .inr ⟨rfl, j, v, _, _, hv, ?_, rfl, List.append_assoc _ _ _, js, vs', rest, more,
        hvs', ?_, rfl, rfl, hbehind⟩
      · rw [List.length_cons]
        omega
      · omega
  · rintro (⟨rfl, hlt, more, rfl, hbehind⟩ | ⟨rfl, hvalue⟩)
    · exact ⟨[], [], ts, more, rfl, hlt, rfl, rfl, hbehind⟩
    · obtain ⟨j, v, rest, more, hv, hdepth, rfl, rfl, js, vs, rest', more', hvs, hdepths, rfl, rfl,
        hbehind⟩ := hvalue
      rw [List.length_cons] at hdepth
      refine ⟨j :: js, v :: vs, rest', more', itemValues?_cons_iff.mpr ⟨v, vs, hv, hvs, rfl⟩, ?_,
        ?_, ?_, hbehind⟩
      · rw [Value.itemsDepth]
        omega
      · simp [itemTokens]
      · simp [Value.itemPushes]

theorem behind_record_iff (hcheck : o.check = false) {place : RecordPlace} {t : Token} :
    Behind o (.record place :: outer) count (t :: ts) ps n ↔
      (t = .objectEnd ∧ outer.length < o.maxDepth ∧
        ∃ more, ps = .endRecord :: more ∧ Behind o outer count ts more n) ∨
      (t = .comma ∧ MemberFirst o outer count ts ps n) := by
  constructor
  · rintro ⟨members, fields, rest, more, hfields, hdepth, hts, rfl, hbehind⟩
    cases members with
    | nil =>
      cases hfields
      cases hts
      exact .inl ⟨rfl, by omega, more, rfl, hbehind⟩
    | cons member members =>
      obtain ⟨key, j⟩ := member
      obtain ⟨text, v, fields', htext, hv, hfields', rfl⟩ := memberValues?_cons_iff.mp hfields
      rw [Value.fieldsDepth] at hdepth
      simp only [memberTokens, List.flatMap_cons, List.cons_append, List.nil_append,
        List.append_assoc, List.cons.injEq] at hts
      obtain ⟨rfl, rfl⟩ := hts
      refine .inr ⟨rfl, key, text, _, _, htext, rfl, ?_, j, v, _, _, hv, ?_, rfl, rfl, members,
        fields', rest, more, hfields', ?_, rfl, rfl, hbehind⟩
      · simp [Value.fieldPushes, hcheck]
      · rw [List.length_cons]
        omega
      · omega
  · rintro (⟨rfl, hlt, more, rfl, hbehind⟩ | ⟨rfl, hmember⟩)
    · exact ⟨[], [], ts, more, rfl, hlt, rfl, rfl, hbehind⟩
    · obtain ⟨key, text, _, _, htext, rfl, rfl, j, v, _, _, hv, hdepth, rfl, rfl, members, fields,
        rest', more', hfields, hdepths, rfl, rfl, hbehind⟩ := hmember
      rw [List.length_cons] at hdepth
      refine ⟨(key, j) :: members, (text, v) :: fields, rest', more',
        memberValues?_cons_iff.mpr ⟨text, v, fields, htext, hv, hfields, rfl⟩, ?_, ?_, ?_, hbehind⟩
      · rw [Value.fieldsDepth]
        omega
      · simp [memberTokens]
      · simp [Value.fieldPushes, hcheck]

/-! ### The beginning of a container -/

theorem valueFirst_array_iff : ValueFirst o frames count (.arrayStart :: ts) ps n ↔
    frames.length < o.maxDepth ∧
      ∃ more, ps = .beginList :: more ∧ Holds o ⟨.list .start :: frames, count⟩ ts more n := by
  constructor
  · rintro ⟨j, v, rest, more, hv, hdepth, hts, rfl, hbehind⟩
    cases j with
    | null | bool | number | string | object => cases hts
    | array items =>
      obtain ⟨vs, hvs, rfl⟩ := Option.map_eq_some_iff.mp hv
      rw [Value.depth] at hdepth
      rw [tokens, List.cons_append, List.cons_append, List.cons.injEq] at hts
      obtain ⟨-, rfl⟩ := hts
      rw [Value.pushes, List.cons_append, List.cons_append]
      refine ⟨by omega, _, rfl, ?_⟩
      cases items with
      | nil =>
        cases hvs
        exact .inl ⟨rest, more, rfl, rfl, hbehind⟩
      | cons j js =>
        obtain ⟨v, vs', hv', hvs', rfl⟩ := itemValues?_cons_iff.mp hvs
        rw [Value.itemsDepth] at hdepth
        refine .inr ⟨j, v, _, _, hv', ?_, ?_, ?_, js, vs', rest, more, hvs', ?_, rfl, rfl, hbehind⟩
        · rw [List.length_cons]
          omega
        · simp [itemTokens, intercalate_cons_eq_flatMap]
        · simp [Value.itemPushes]
        · omega
  · rintro ⟨hlt, more, rfl, ⟨rest, more', rfl, rfl, hbehind⟩ | hvalue⟩
    · refine ⟨.array [], .list [], rest, more', rfl, ?_, rfl, rfl, hbehind⟩
      exact hlt
    · obtain ⟨j, v, _, _, hv, hdepth, rfl, rfl, js, vs, rest, more', hvs, hdepths, rfl, rfl,
        hbehind⟩ := hvalue
      rw [List.length_cons] at hdepth
      have hitems : itemValues? o (j :: js) = some (v :: vs) :=
        itemValues?_cons_iff.mpr ⟨v, vs, hv, hvs, rfl⟩
      refine ⟨.array (j :: js), .list (v :: vs), rest, more', ?_, ?_, ?_, ?_, hbehind⟩
      · rw [value?, hitems]
        rfl
      · rw [Value.depth, Value.itemsDepth]
        omega
      · simp [tokens, itemTokens, intercalate_cons_eq_flatMap]
      · simp [Value.pushes, Value.itemPushes]

theorem valueFirst_object_iff (hcheck : o.check = false) :
    ValueFirst o frames count (.objectStart :: ts) ps n ↔ frames.length < o.maxDepth ∧
      ∃ more, ps = .beginRecord none :: more ∧
        Holds o ⟨.record .start :: frames, count⟩ ts more n := by
  constructor
  · rintro ⟨j, v, rest, more, hv, hdepth, hts, rfl, hbehind⟩
    cases j with
    | null | bool | number | string | array => cases hts
    | object members =>
      obtain ⟨fields, hfields, rfl⟩ := Option.map_eq_some_iff.mp hv
      rw [Value.depth] at hdepth
      rw [tokens, List.cons_append, List.cons_append, List.cons.injEq] at hts
      obtain ⟨-, rfl⟩ := hts
      rw [Value.pushes, List.cons_append, List.cons_append]
      refine ⟨by omega, _, rfl, ?_⟩
      cases members with
      | nil =>
        cases hfields
        exact .inl ⟨rest, more, rfl, rfl, hbehind⟩
      | cons member members =>
        obtain ⟨key, j⟩ := member
        obtain ⟨text, v, fields', htext, hv', hfields', rfl⟩ :=
          memberValues?_cons_iff.mp hfields
        rw [Value.fieldsDepth] at hdepth
        refine .inr ⟨key, text, _, _, htext, ?_, ?_, j, v, _, _, hv', ?_, rfl, rfl, members,
          fields', rest, more, hfields', ?_, rfl, rfl, hbehind⟩
        · simp [memberTokens, intercalate_cons_eq_flatMap]
        · simp [Value.fieldPushes, hcheck]
        · rw [List.length_cons]
          omega
        · omega
  · rintro ⟨hlt, more, rfl, ⟨rest, more', rfl, rfl, hbehind⟩ | hmember⟩
    · refine ⟨.object [], .record none [], rest, more', rfl, ?_, rfl, rfl, hbehind⟩
      exact hlt
    · obtain ⟨key, text, _, _, htext, rfl, rfl, j, v, _, _, hv, hdepth, rfl, rfl, members, fields,
        rest, more', hfields, hdepths, rfl, rfl, hbehind⟩ := hmember
      rw [List.length_cons] at hdepth
      have hmembers : memberValues? o ((key, j) :: members) = some ((text, v) :: fields) :=
        memberValues?_cons_iff.mpr ⟨text, v, fields, htext, hv, hfields, rfl⟩
      refine ⟨.object ((key, j) :: members), .record none ((text, v) :: fields), rest, more', ?_,
        ?_, ?_, ?_, hbehind⟩
      · rw [value?, hmembers]
        rfl
      · rw [Value.depth, Value.fieldsDepth]
        omega
      · simp [tokens, memberTokens, intercalate_cons_eq_flatMap]
      · simp [Value.pushes, Value.fieldPushes, hcheck]

/-! ### Values that are no containers -/

/-- A spelled token that is no mark is a value. -/
theorem exists_tokens {t : Token} {text : List UInt8} (h : Spells t text)
    (hmark : t.isMark = false) : ∃ j : Json, j.tokens = [t] := by
  cases h with
  | @mark _ b h =>
    have hmarks : ∀ m ∈ markBytes, m.1.isMark = true := by decide
    rw [hmarks _ (mem_markBytes h)] at hmark
    cases hmark
  | word h =>
    rcases wordBytes_cases h with ⟨rfl, -⟩ | ⟨rfl, -⟩ | ⟨rfl, -⟩
    · exact ⟨.null, rfl⟩
    · exact ⟨.bool true, rfl⟩
    · exact ⟨.bool false, rfl⟩
  | string h => exact ⟨.string ⟨_, _, h⟩, rfl⟩
  | number h => exact ⟨.number ⟨_, h⟩, rfl⟩

/-- A value whose first token is no mark is that token. -/
theorem eq_of_tokens_append {j : Json} {t : Token} {rest : List Token} (hmark : t.isMark = false)
    (h : t :: ts = j.tokens ++ rest) : j.tokens = [t] ∧ rest = ts := by
  cases j with
  | null | bool | number | string =>
    cases h
    exact ⟨rfl, rfl⟩
  | array | object =>
    cases h
    cases hmark

/-- A value of one push is no container. -/
theorem depth_of_pushes {v : Columnar.Value} {p : Push} (h : v.pushes = [p]) : v.depth = 0 := by
  cases v with
  | list | tuple | record =>
    have hlen := congrArg List.length h
    simp [Value.pushes] at hlen
  | _ => rfl

variable {s s' : Progress} {t : Located} {q : Option Push}

theorem advanceValue_eq {j : Json} (h : j.tokens = [t.token]) : s.advanceValue o t
    = (o.scalarPush s.expected t).map fun p => (s.complete, some p) := by
  obtain ⟨token, span⟩ := t
  cases j with
  | null | bool | number | string =>
    cases h
    rfl
  | array | object =>
    have hlen := congrArg List.length h
    simp [tokens] at hlen

/-- A token that is a whole value, where a value comes next. -/
theorem advanceValue_eq_ok_iff {j : Json} (h : j.tokens = [t.token]) :
    s.advanceValue o t = .ok (s', q)
      ↔ ∃ v p, j.value? o = some v ∧ v.pushes = [p] ∧ s' = s.complete ∧ q = some p := by
  have hpush := ReadOptions.scalarPush_eq (o := o) h s.expected
  rw [advanceValue_eq h]
  cases hscalar : o.scalarPush s.expected t with
  | error e =>
    rw [hscalar] at hpush
    have hnone : j.value? o = none := by simpa [Except.toOption] using hpush
    refine ⟨fun hok => (by cases hok), fun ⟨v, _, hv, _⟩ => ?_⟩
    rw [hnone] at hv
    cases hv
  | ok p =>
    rw [hscalar] at hpush
    obtain ⟨v, hv, hvp⟩ := Option.map_eq_some_iff.mp hpush.symm
    constructor
    · intro hok
      cases hok
      exact ⟨v, p, hv, hvp, rfl, rfl⟩
    · rintro ⟨v', p', hv', hvp', rfl, rfl⟩
      rw [hv] at hv'
      cases hv'
      rw [hvp] at hvp'
      cases hvp'
      rfl

theorem valueFirst_scalar_iff {text : List UInt8} (hframes : s.frames.length ≤ o.maxDepth)
    (hspells : Spells t.token text) (hmark : t.token.isMark = false) :
    ValueFirst o s.frames s.count (t.token :: ts) ps n ↔ Leads o ts ps n (s.advanceValue o t) := by
  constructor
  · rintro ⟨j, v, rest, more, hv, -, hts, rfl, hbehind⟩
    obtain ⟨hj, rfl⟩ := eq_of_tokens_append hmark hts
    obtain ⟨p, hp⟩ : ∃ p, v.pushes = [p] := by
      have hpush := ReadOptions.scalarPush_eq (o := o) hj s.expected
      rw [hv] at hpush
      obtain ⟨p, -, hp⟩ := Option.map_eq_some_iff.mp hpush
      exact ⟨p, hp.symm⟩
    rw [(advanceValue_eq_ok_iff hj).mpr ⟨v, p, hv, hp, rfl, rfl⟩, hp]
    exact ⟨more, rfl, (holds_complete s).mpr hbehind⟩
  · intro h
    obtain ⟨j, hj⟩ := exists_tokens hspells hmark
    cases hok : s.advanceValue o t with
    | error e =>
      rw [hok] at h
      exact h.elim
    | ok r =>
      obtain ⟨s', q⟩ := r
      obtain ⟨v, p, hv, hp, rfl, rfl⟩ := (advanceValue_eq_ok_iff hj).mp hok
      rw [hok] at h
      obtain ⟨more, rfl, hholds⟩ := h
      refine ⟨j, v, ts, more, hv, ?_, by rw [hj]; rfl, by rw [hp]; rfl,
        (holds_complete s).mp hholds⟩
      rw [depth_of_pushes hp]
      exact hframes

/-- A token that opens a container is taken if that is not one too many. -/
theorem leads_opening_iff {x : Progress} {p : Push} {e : JsonError} {c : Prop} [Decidable c] :
    Leads o ts ps n (if c then .error e else .ok (x, some p))
      ↔ ¬ c ∧ ∃ more, ps = p :: more ∧ Holds o x ts more n := by
  by_cases hc : c
  · rw [if_pos hc]
    exact ⟨fun h => h.elim, fun h => h.1 hc⟩
  · rw [if_neg hc]
    exact ⟨fun h => ⟨hc, h⟩, fun h => h.2⟩

/-- A token where a value comes next. -/
theorem valueFirst_cons_iff {text : List UInt8} (hcheck : o.check = false)
    (hframes : s.frames.length ≤ o.maxDepth) (hspells : Spells t.token text) :
    ValueFirst o s.frames s.count (t.token :: ts) ps n ↔ Leads o ts ps n (s.advanceValue o t) := by
  cases hmark : t.token.isMark with
  | false => exact valueFirst_scalar_iff hframes hspells hmark
  | true =>
    obtain ⟨token, span⟩ := t
    cases token with
    | arrayStart =>
      refine valueFirst_array_iff.trans (Iff.trans ?_ leads_opening_iff.symm)
      refine and_congr ?_ Iff.rfl
      simp [Token.isOpening]
    | objectStart =>
      refine (valueFirst_object_iff hcheck).trans (Iff.trans ?_ leads_opening_iff.symm)
      refine and_congr ?_ Iff.rfl
      simp [Token.isOpening]
    | arrayEnd | objectEnd | colon | comma =>
      -- no value starts so
      refine iff_of_false ?_ id
      rintro ⟨j, v, rest, more, -, -, hts, -⟩
      cases j <;> cases hts
    | null | bool | number | string => cases hmark

/-- A token where a key comes next. -/
theorem memberFirst_cons_iff {text : List UInt8} (hspells : Spells t.token text) :
    MemberFirst o outer s.count (t.token :: ts) ps n
      ↔ Leads o ts ps n (s.advanceKey o outer t) := by
  obtain ⟨token, span⟩ := t
  cases token with
  | string content hasEscapes =>
    have hbody : StringBody content hasEscapes := by
      cases hspells with
      | mark h => exact absurd (mem_markBytes h) (by simp [markBytes])
      | word h => simp [wordBytes] at h
      | string h => exact h
    have htoOption := StringContent.toOption_decode 0 (span.offset + 1) content hasEscapes
    cases hdecode : StringContent.decode (span.offset + 1) content hasEscapes with
    | error e =>
      have hadvance : s.advanceKey o outer ⟨.string content hasEscapes, span⟩
          = .error (.ofScan e) := by
        simp only [Progress.advanceKey, hdecode]
      rw [hdecode] at htoOption
      rw [hadvance]
      refine iff_of_false ?_ id
      rintro ⟨key, text, rest, more, htext, hts, -⟩
      cases hts
      rw [JsonString.text?, htoOption] at htext
      cases htext
    | ok key =>
      have hadvance : s.advanceKey o outer ⟨.string content hasEscapes, span⟩
          = .ok ({ s with frames := .record .colon :: outer }, some (.field key o.check)) := by
        simp only [Progress.advanceKey, hdecode]
      rw [hdecode] at htoOption
      rw [hadvance]
      constructor
      · rintro ⟨s', text, rest, more, htext, hts, rfl, hvalue⟩
        cases hts
        rw [JsonString.text?, htoOption] at htext
        cases htext
        exact ⟨more, rfl, rest, rfl, hvalue⟩
      · rintro ⟨more, rfl, rest, rfl, hvalue⟩
        exact ⟨⟨content, hasEscapes, hbody⟩, key, rest, more, htoOption, rfl, rfl, hvalue⟩
  | _ =>
    refine iff_of_false ?_ id
    rintro ⟨key, text, rest, more, -, hts, -⟩
    cases hts

theorem behind_list_cons_iff (hframes : outer.length < o.maxDepth) :
    Behind o (.list .behindItem :: outer) count (t.token :: ts) ps n
      ↔ Leads o ts ps n (Progress.advance o ⟨.list .behindItem :: outer, count⟩ t) := by
  rw [behind_list_iff]
  obtain ⟨token, span⟩ := t
  cases token with
  | arrayEnd =>
    simp only [true_and, reduceCtorEq, false_and, or_false, hframes]
    exact exists_congr fun more => and_congr_right fun _ => (holds_complete ⟨outer, count⟩).symm
  | comma =>
    simp only [reduceCtorEq, false_and, true_and, false_or]
    exact Iff.rfl
  | _ =>
    refine iff_of_false ?_ id
    rintro (⟨h, -⟩ | ⟨h, -⟩) <;> cases h

theorem behind_record_cons_iff (hcheck : o.check = false) (hframes : outer.length < o.maxDepth) :
    Behind o (.record .behindValue :: outer) count (t.token :: ts) ps n
      ↔ Leads o ts ps n (Progress.advance o ⟨.record .behindValue :: outer, count⟩ t) := by
  rw [behind_record_iff hcheck]
  obtain ⟨token, span⟩ := t
  cases token with
  | objectEnd =>
    simp only [true_and, reduceCtorEq, false_and, or_false, hframes]
    exact exists_congr fun more => and_congr_right fun _ => (holds_complete ⟨outer, count⟩).symm
  | comma =>
    simp only [reduceCtorEq, false_and, true_and, false_or]
    exact Iff.rfl
  | _ =>
    refine iff_of_false ?_ id
    rintro (⟨h, -⟩ | ⟨h, -⟩) <;> cases h

/-- **A token is taken exactly if it is demanded**, and leaves the rest to be demanded. -/
theorem holds_cons_iff {text : List UInt8} (hcheck : o.check = false)
    (hframes : s.frames.length ≤ o.maxDepth) (hspells : Spells t.token text) :
    Holds o s (t.token :: ts) ps n ↔ Leads o ts ps n (s.advance o t) := by
  obtain ⟨frames, count⟩ := s
  match frames with
  | [] => exact values_cons_iff.trans (valueFirst_cons_iff hcheck hframes hspells)
  | .list .start :: outer =>
    have hvalue : ValueFirst o (.list .start :: outer) count (t.token :: ts) ps n
        ↔ Leads o ts ps n (Progress.advanceValue o ⟨.list .start :: outer, count⟩ t) :=
      valueFirst_cons_iff (s := ⟨.list .start :: outer, count⟩) hcheck hframes hspells
    obtain ⟨token, span⟩ := t
    cases token with
    | arrayEnd =>
      -- a list without items; no value starts so
      constructor
      · rintro (⟨rest, more, hts, rfl, hbehind⟩ | hfirst)
        · cases hts
          exact ⟨more, rfl, (holds_complete ⟨outer, count⟩).mpr hbehind⟩
        · exact (hvalue.mp hfirst).elim
      · rintro ⟨more, rfl, hholds⟩
        exact .inl ⟨ts, more, rfl, rfl, (holds_complete ⟨outer, count⟩).mp hholds⟩
    | _ =>
      refine Iff.trans (or_iff_right ?_) hvalue
      rintro ⟨rest, more, hts, -⟩
      cases hts
  | .list .item :: outer => exact valueFirst_cons_iff hcheck hframes hspells
  | .list .behindItem :: outer => exact behind_list_cons_iff hframes
  | .record .start :: outer =>
    have hmember : MemberFirst o outer count (t.token :: ts) ps n
        ↔ Leads o ts ps n (Progress.advanceKey o ⟨.record .start :: outer, count⟩ outer t) :=
      memberFirst_cons_iff (s := ⟨.record .start :: outer, count⟩) hspells
    obtain ⟨token, span⟩ := t
    cases token with
    | objectEnd =>
      -- a record without fields; no key starts so
      constructor
      · rintro (⟨rest, more, hts, rfl, hbehind⟩ | hfirst)
        · cases hts
          exact ⟨more, rfl, (holds_complete ⟨outer, count⟩).mpr hbehind⟩
        · exact (hmember.mp hfirst).elim
      · rintro ⟨more, rfl, hholds⟩
        exact .inl ⟨ts, more, rfl, rfl, (holds_complete ⟨outer, count⟩).mp hholds⟩
    | _ =>
      refine Iff.trans (or_iff_right ?_) hmember
      rintro ⟨rest, more, hts, -⟩
      cases hts
  | .record .key :: outer =>
    exact memberFirst_cons_iff (s := ⟨.record .key :: outer, count⟩) hspells
  | .record .colon :: outer =>
    obtain ⟨token, span⟩ := t
    cases token with
    | colon =>
      constructor
      · rintro ⟨rest, hts, hvalue⟩
        cases hts
        exact hvalue
      · intro hvalue
        exact ⟨ts, rfl, hvalue⟩
    | _ =>
      refine iff_of_false ?_ id
      rintro ⟨rest, hts, -⟩
      cases hts
  | .record .value :: outer => exact valueFirst_cons_iff hcheck hframes hspells
  | .record .behindValue :: outer => exact behind_record_cons_iff hcheck hframes

/-! ### The end -/

theorem not_behind_nil (f : Frame) : ¬ Behind o (f :: outer) count [] ps n := by
  cases f with
  | list => simp [Behind]
  | record => simp [Behind]

theorem not_valueFirst_nil : ¬ ValueFirst o frames count [] ps n := by
  rintro ⟨j, v, rest, more, -, -, hts, -⟩
  exact j.tokens_append_ne_nil rest hts.symm

/-- Nothing is demanded only outside of all containers. -/
theorem holds_nil_iff : Holds o s [] ps n ↔ s.frames = [] ∧ ps = [] ∧ n = s.count := by
  obtain ⟨frames, count⟩ := s
  cases frames with
  | nil =>
    constructor
    · rintro ⟨js, vs, hvs, -, hts, rfl, rfl⟩
      cases js with
      | nil =>
        cases hvs
        exact ⟨rfl, rfl, rfl⟩
      | cons j js => exact absurd hts.symm (j.tokens_append_ne_nil _)
    · rintro ⟨-, rfl, rfl⟩
      exact ⟨[], [], rfl, Nat.zero_le _, rfl, rfl, rfl⟩
  | cons f outer =>
    refine iff_of_false ?_ (by nofun)
    have hvalue : ∀ g, ¬ ValueFirst o (g :: outer) count [] ps n := fun _ => not_valueFirst_nil
    have hbehind : ∀ g, ¬ Behind o (g :: outer) count [] ps n := not_behind_nil
    cases f with
    | list place =>
      cases place with
      | start => simp [Holds, hvalue]
      | item => exact hvalue _
      | behindItem => exact hbehind _
    | record place =>
      cases place with
      | start => simp [Holds, MemberFirst]
      | key => simp [Holds, MemberFirst]
      | colon => simp [Holds]
      | value => exact hvalue _
      | behindValue => exact hbehind _

end Demand

end Columnar
