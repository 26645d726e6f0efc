import Columnar.Proofs.Column.MapReals
import Columnar.Proofs.Json.Adds
import Columnar.Proofs.Json.Numerals
import Columnar.Proofs.Json.Quotation
import Columnar.Proofs.Json.Texts

/-!
# Values as they are written

The text of a value is that of a JSON value, between whose tokens there are at most line breaks
and indents, and this JSON value means the value that was written.  That is proved by recursion
over values: for the items of a list and the fields of a record, what is added starts with a
comma behind others.

## Main definitions

* `WriteOptions.Suits` — settings with which text can be read again.
* `Value.Portable` — values that JSON has, with strings for reals that are not finite.
* `MeansIn` — a text is that of a JSON value, which means a value.

## Main results

* `ReadOptions.nonFinite?_of_spelling?` — the string of a real is read as the real.
* `Value.adds_calls` — **the text of a value is that of a JSON value with its meaning.**
* `Value.exists_lines` — **values on lines of their own are a JSON text.**
-/

namespace Columnar

/-! ### Texts of tokens -/

namespace Spaced

variable {ts us : List Token} {text more blanks : List UInt8}

theorem single {t : Token} (h : Spells t text) : Spaced [t] text := by
  have hnil : ∀ b ∈ ([] : List UInt8), isBlankByte b = true := nofun
  have hcons := Spaced.cons hnil h (.nil hnil)
  rwa [List.nil_append, List.append_nil] at hcons

theorem blanks_append (hb : ∀ b ∈ blanks, isBlankByte b = true) (h : Spaced ts text) :
    Spaced ts (blanks ++ text) := by
  cases h with
  | nil hb' => exact .nil fun b hm => (List.mem_append.mp hm).elim (hb b) (hb' b)
  | cons hb' ht h =>
    rw [← List.append_assoc]
    exact .cons (fun b hm => (List.mem_append.mp hm).elim (hb b) (hb' b)) ht h

theorem append (h : Spaced ts text) (h' : Spaced us more) : Spaced (ts ++ us) (text ++ more) := by
  induction h with
  | nil hb => exact blanks_append hb h'
  | cons hb ht _ ih =>
    rw [List.append_assoc, List.append_assoc]
    exact .cons hb ht ih

end Spaced

/-- Tokens with a comma before each of them, but for the very first ones. -/
def joined (isFirst : Bool) : List (List Token) → List Token
  | [] => []
  | ts :: rest => (if isFirst then [] else [.comma]) ++ (ts ++ joined false rest)

theorem joined_true (tss : List (List Token)) : joined true tss = [.comma].intercalate tss := by
  have hbehind : ∀ (ts : List Token) (rest : List (List Token)),
      joined false (ts :: rest) = .comma :: joined true (ts :: rest) := fun _ _ => rfl
  induction tss with
  | nil => rfl
  | cons ts rest ih =>
    cases rest with
    | nil => simp [joined]
    | cons us rest =>
      rw [List.intercalate_cons_cons, ← ih, joined, if_pos rfl, List.nil_append, hbehind]
      simp

/-- What stands between two marks. -/
theorem Spaced.enclosed {ts : List Token} {text blanks : List Char} {first last : Token}
    {a z : Char} (ha : Spells first (Utf8.encode [a])) (hz : Spells last (Utf8.encode [z]))
    (hb : IsBlankText blanks) (h : Spaced ts (Utf8.encode text)) :
    Spaced (first :: ts ++ [last]) (Utf8.encode (a :: text ++ (blanks ++ [z]))) := by
  have hall := (Spaced.single ha).append (h.append (blanks_append hb.encode (.single hz)))
  simpa using hall

theorem spaced_separator (isEmpty : Bool) :
    Spaced (if isEmpty then [] else [.comma]) (Utf8.encode (Encoder.separator isEmpty)) := by
  cases isEmpty with
  | true => exact .nil nofun
  | false => exact .single (.mark rfl)

/-! ### Values that text carries over -/

/-- The string that is read as a real that is not finite. -/
def ReadOptions.spelling? (o : ReadOptions) (x : Binary64) : Option String :=
  if x.isNaN then o.nan? else if x.negative then o.minusInfinity? else o.infinity?

/-- No string is read as two different reals. -/
structure ReadOptions.DistinctSpellings (o : ReadOptions) : Prop where
  nan_infinity : ∀ s, o.nan? = some s → o.infinity? ≠ some s
  nan_minusInfinity : ∀ s, o.nan? = some s → o.minusInfinity? ≠ some s
  infinity_minusInfinity : ∀ s, o.infinity? = some s → o.minusInfinity? ≠ some s

/-- Text that is written with some settings can be read with others: lines are indented by
blanks, reals keep all their digits, and no string is read as two reals. -/
structure WriteOptions.Suits (wo : WriteOptions) (ro : ReadOptions) : Prop where
  blank : wo.IsBlank
  decimals : wo.maxDecimals? = none
  spellings : ro.DistinctSpellings

namespace Value

section

variable (wo : WriteOptions) (ro : ReadOptions)

mutual

/-- A value of the kinds that JSON has.  A real that is not finite is written as the string that
is read as it, and no other string is read as a real. -/
def Portable : Value → Prop
  | .null => True
  | .bool _ => True
  | .int _ => True
  | .real x => x.isFinite = false → ∃ s, wo.spelling? x = some s ∧ ro.spelling? x = some s
  | .string s => ro.nonFinite? s = none
  | .list items => ItemsPortable items
  | .record none fields => FieldsPortable fields
  | _ => False

/-- All values are of the kinds that JSON has. -/
def ItemsPortable : List Value → Prop
  | [] => True
  | v :: vs => Portable v ∧ ItemsPortable vs

/-- The values of all fields are of the kinds that JSON has. -/
def FieldsPortable : List (String × Value) → Prop
  | [] => True
  | (_, v) :: rest => Portable v ∧ FieldsPortable rest

end

end

end Value

namespace Binary64

/-- What is not finite is not a number or an infinity. -/
theorem eq_infinity_of_not_isFinite {x : Binary64} (h : x.isFinite = false)
    (hn : x.isNaN = false) : x = infinity x.negative := by
  have hm : x.magnitude = infinityMagnitude := by
    simp only [isFinite, isNaN, decide_eq_false_iff_not] at h hn
    omega
  rw [infinity, ← hm, ofMagnitude_eq]

theorem canonical_of_not_isNaN {x : Binary64} (h : x.isNaN = false) : x.canonical = x := by
  rw [canonical, h]
  rfl

/-- A real that comes from an integer is a number. -/
theorem keepsInts_canonical : KeepsInts canonical := fun _ =>
  canonical_of_not_isNaN (ofRatio_isNearest _ _ Nat.one_pos).isNaN

end Binary64

namespace ReadOptions

/-- The string of a real that is not finite is read as this real. -/
theorem nonFinite?_of_spelling? {o : ReadOptions} {x : Binary64} {s : String}
    (ho : o.DistinctSpellings) (hx : x.isFinite = false) (h : o.spelling? x = some s) :
    o.nonFinite? s = some x.canonical := by
  unfold spelling? at h
  unfold nonFinite?
  cases hn : x.isNaN with
  | true =>
    rw [hn, if_pos rfl] at h
    rw [if_pos h, Binary64.canonical, hn]
    rfl
  | false =>
    rw [hn, if_neg Bool.false_ne_true] at h
    rw [Binary64.canonical_of_not_isNaN hn]
    have hinfinity := Binary64.eq_infinity_of_not_isFinite hx hn
    cases hneg : x.negative with
    | false =>
      rw [hneg, if_neg Bool.false_ne_true] at h
      rw [if_neg fun hnan => ho.nan_infinity s hnan h, if_pos h, hinfinity, hneg]
    | true =>
      rw [hneg, if_pos rfl] at h
      rw [if_neg fun hnan => ho.nan_minusInfinity s hnan h,
        if_neg fun hinf => ho.infinity_minusInfinity s hinf h, if_pos h, hinfinity, hneg]

end ReadOptions

/-! ### The texts of values -/

/-- Some text is that of a JSON value, which means a value. -/
def MeansIn (ro : ReadOptions) (text : List Char) (v : Value) : Prop :=
  ∃ j : Json, Spaced j.tokens (Utf8.encode text) ∧ j.value? ro = some v

/-- A JSON string. -/
theorem meansIn_quotedText (ro : ReadOptions) (s : String) :
    MeansIn ro (quotedText s) (ro.textValue s) := by
  obtain ⟨j, hspells, htext⟩ := exists_jsonString s
  exact ⟨.string j, .single hspells, by rw [Json.value?, htext]; rfl⟩

/-- A number of the grammar. -/
theorem meansIn_literal {ro : ReadOptions} {text : List Char} {p : NumberParts} {v : Value}
    (hp : p.IsGrammatical) (hl : p.literal = Utf8.encode text)
    (hv : ro.numberValue? p.number = some v) : MeansIn ro text v := by
  refine ⟨.number ⟨p, hp⟩, ?_, hv⟩
  rw [← hl]
  exact .single (.number hp)

namespace Value

variable {wo : WriteOptions} {ro : ReadOptions}

open Encoder

theorem meansIn_int (ro : ReadOptions) (n : Int64) :
    MeansIn ro (toString n.toInt).toList (.int n) := by
  obtain ⟨p, hp, hl, hn⟩ := exists_literal_int n
  exact meansIn_literal hp hl (by rw [hn]; rfl)

/-- The text of a real. -/
theorem exists_realStep (hreals : wo.reals.IsDocumented) (h : wo.Suits ro) {x : Binary64}
    (hx : (Value.real x).Portable wo ro) : ∃ name text,
      wo.realStep x = .value name text ∧ MeansIn ro text (.real x.canonical) := by
  unfold WriteOptions.realStep
  cases hfinite : x.isFinite with
  | true =>
    obtain ⟨p, hp, hl, hn⟩ := hreals.exists_literal hfinite
    have hnan : x.isNaN = false := by
      simp only [Binary64.isFinite, Binary64.isNaN, decide_eq_true_eq,
        decide_eq_false_iff_not] at hfinite ⊢
      omega
    refine ⟨_, _, rfl, meansIn_literal hp ?_ ?_⟩
    · rw [hl, WriteOptions.realText, h.decimals]
      rfl
    · rw [hn, Binary64.canonical_of_not_isNaN hnan]
      rfl
  | false =>
    obtain ⟨s, hwrite, hread⟩ := hx hfinite
    refine ⟨"string", quotedText s, by rw [hwrite]; rfl, ?_⟩
    have hvalue : ro.textValue s = .real x.canonical := by
      rw [ReadOptions.textValue, ReadOptions.nonFinite?_of_spelling? h.spellings hfinite hread]
    rw [← hvalue]
    exact meansIn_quotedText ro s

mutual

/-- **The text of a value is that of a JSON value with its meaning**, wherever it is written. -/
theorem adds_calls (hreals : wo.reals.IsDocumented) (h : wo.Suits ro) :
    ∀ v : Value, v.Portable wo ro → ∀ {e e₁ : Encoder} {before : List Char},
    Awaits wo e e₁ before → ∃ text, Adds wo e v.calls e₁ (before ++ text) ∧
      MeansIn ro text (v.mapReals Binary64.canonical)
  | .null, _, _, _, _, he =>
    ⟨_, he.adds_value rfl, .null, .single (.word (.head _)), rfl⟩
  | .bool true, _, _, _, _, he =>
    ⟨_, he.adds_value rfl, .bool true, .single (.word (.tail _ (.head _))), rfl⟩
  | .bool false, _, _, _, _, he =>
    ⟨_, he.adds_value rfl, .bool false, .single (.word (.tail _ (.tail _ (.head _)))), rfl⟩
  | .int n, _, _, _, _, he => ⟨_, he.adds_value rfl, meansIn_int ro n⟩
  | .real x, hv, _, _, _, he => by
    obtain ⟨name, text, hstep, hmeans⟩ := exists_realStep hreals h hv
    exact ⟨text, he.adds_value (congrArg (fun s => [s]) hstep), hmeans⟩
  | .string s, hv, _, _, _, he => by
    have hnone : ro.nonFinite? s = none := hv
    have hmeans := meansIn_quotedText ro s
    rw [ReadOptions.textValue, hnone] at hmeans
    exact ⟨_, he.adds_value rfl, hmeans⟩
  | .list items, hv, e, e₁, before, he => by
    obtain ⟨text, js, hadds, hspaced, hvalues⟩ := adds_itemCalls hreals h items hv e₁ true
    refine ⟨_, he.adds_list hadds, .array js, ?_, ?_⟩
    · rw [Json.tokens, ← joined_true]
      exact .enclosed (.mark rfl) (.mark rfl) (h.blank.lastLine _ _) hspaced
    · rw [Json.value?, hvalues]
      rfl
  | .record none fields, hv, e, e₁, before, he => by
    obtain ⟨text, js, hadds, hspaced, hvalues⟩ := adds_fieldCalls hreals h fields hv e₁ true
    refine ⟨_, he.adds_record hadds, .object js, ?_, ?_⟩
    · rw [Json.tokens, ← joined_true]
      exact .enclosed (.mark rfl) (.mark rfl) (h.blank.lastLine _ _) hspaced
    · rw [Json.value?, hvalues]
      rfl
termination_by structural v => v

theorem adds_itemCalls (hreals : wo.reals.IsDocumented) (h : wo.Suits ro) :
    ∀ vs : List Value, ItemsPortable wo ro vs → ∀ (e : Encoder) (isEmpty : Bool),
      ∃ text js, Adds wo (e.enter (.list isEmpty)) (itemCalls vs)
        (e.enter (.list (isEmpty && vs.isEmpty))) text ∧
      Spaced (joined isEmpty (Json.itemTokens js)) (Utf8.encode text) ∧
      Json.itemValues? ro js = some (mapRealsItems Binary64.canonical vs)
  | [], _, e, isEmpty => by
    refine ⟨[], [], ?_, .nil (by simp), rfl⟩
    rw [List.isEmpty_nil, Bool.and_true]
    exact .nil _
  | v :: vs, hvs, e, isEmpty => by
    obtain ⟨text, hadds, j, hspaced, hvalue⟩ :=
      adds_calls hreals h v hvs.1 (awaits_list wo e isEmpty)
    obtain ⟨more, js, hadds', hspaced', hvalues⟩ := adds_itemCalls hreals h vs hvs.2 e false
    rw [List.isEmpty_cons, Bool.and_false]
    refine ⟨_, j :: js, hadds.append hadds', ?_, ?_⟩
    · rw [Json.itemTokens, joined]
      simp only [Utf8.encode_append, List.append_assoc]
      exact (spaced_separator isEmpty).append (.blanks_append (h.blank.newLine _).encode
        (hspaced.append hspaced'))
    · exact Json.itemValues?_cons_iff.mpr ⟨_, _, hvalue, hvalues, rfl⟩
termination_by structural vs => vs

theorem adds_fieldCalls (hreals : wo.reals.IsDocumented) (h : wo.Suits ro) :
    ∀ fields : List (String × Value), FieldsPortable wo ro fields →
    ∀ (e : Encoder) (isEmpty : Bool), ∃ text members,
      Adds wo (e.enter (.record isEmpty false)) (fieldCalls fields)
        (e.enter (.record (isEmpty && fields.isEmpty) false)) text ∧
      Spaced (joined isEmpty (Json.memberTokens members)) (Utf8.encode text) ∧
      Json.memberValues? ro members = some (mapRealsFields Binary64.canonical fields)
  | [], _, e, isEmpty => by
    refine ⟨[], [], ?_, .nil (by simp), rfl⟩
    rw [List.isEmpty_nil, Bool.and_true]
    exact .nil _
  | (key, v) :: rest, hfields, e, isEmpty => by
    obtain ⟨name, hname, htext⟩ := exists_jsonString key
    obtain ⟨text, hadds, j, hspaced, hvalue⟩ :=
      adds_calls hreals h v hfields.1 (awaits_record wo e false)
    obtain ⟨more, members, hadds', hspaced', hvalues⟩ :=
      adds_fieldCalls hreals h rest hfields.2 e false
    rw [List.isEmpty_cons, Bool.and_false]
    refine ⟨_, (name, j) :: members,
      .cons (call_field wo e isEmpty key) (hadds.append hadds'), ?_, ?_⟩
    · have hcolon : Spaced [.colon] (Utf8.encode [':']) := .single (.mark rfl)
      have hbehind := (WriteOptions.isBlankText_behindKey wo).encode
      have hmember := (Spaced.single hname).append (hcolon.append
        (.blanks_append hbehind (hspaced.append hspaced')))
      have hall := (spaced_separator isEmpty).append
        (.blanks_append (h.blank.newLine (e.stack.length + 1)).encode hmember)
      rw [Json.memberTokens, joined]
      simpa using hall
    · exact Json.memberValues?_cons_iff.mpr ⟨_, _, _, htext, hvalue, hvalues, rfl⟩
termination_by structural fields => fields

end

section

variable (hreals : wo.reals.IsDocumented) (h : wo.Suits ro)
include hreals h

/-- Values behind others stand on lines of their own. -/
theorem adds_lines : ∀ vs : List Value, (∀ v ∈ vs, v.Portable wo ro) → ∃ text js e',
    Adds wo ⟨[], true⟩ (itemCalls vs) e' text ∧
      Json.itemValues? ro js = some (mapRealsItems Binary64.canonical vs) ∧
      ∀ (j : Json) (front : List UInt8), Spaced j.tokens front →
        JsonTexts (j :: js) (front ++ Utf8.encode text)
  | [], _ => by
    refine ⟨[], [], _, .nil _, rfl, fun j front hfront => ?_⟩
    rw [Utf8.encode_nil, List.append_nil]
    exact .last hfront
  | v :: vs, hvs => by
    obtain ⟨hv, hvs⟩ := List.forall_mem_cons.mp hvs
    obtain ⟨text, hadds, j, hspaced, hvalue⟩ := adds_calls hreals h v hv (awaits_outside wo true)
    obtain ⟨more, js, e', hadds', hvalues, htexts⟩ := adds_lines vs hvs
    refine ⟨_, j :: js, e', hadds.append hadds',
      Json.itemValues?_cons_iff.mpr ⟨_, _, hvalue, hvalues, rfl⟩, fun j' front hfront => ?_⟩
    have hline : Utf8.encode ((if true then ['\n'] else []) ++ text ++ more)
        = 0x0a :: (Utf8.encode text ++ Utf8.encode more) := by
      rw [Utf8.encode_append, Utf8.encode_append]
      rfl
    rw [hline]
    exact .cons hfront rfl (htexts j _ hspaced)

/-- **Values on lines of their own are a JSON text** with their meanings. -/
theorem exists_lines {vs : List Value} (hvs : ∀ v ∈ vs, v.Portable wo ro) : ∃ text js,
    Value.lines wo vs = .ok text ∧ JsonTexts js (Utf8.encodeString text) ∧
      Json.itemValues? ro js = some (mapRealsItems Binary64.canonical vs) := by
  have hwrites : ∀ {text : List Char} {e' : Encoder}, Adds wo .start (itemCalls vs) e' text →
      Value.lines wo vs = .ok (String.ofList text) := by
    intro text e' hadds
    rw [Value.lines, TextWriter.new, hadds.callAll]
    simp [Except.map]
  cases vs with
  | nil => exact ⟨_, [], hwrites (.nil _), .nil (by simp [Utf8.encodeString]), rfl⟩
  | cons v vs =>
    obtain ⟨hv, hvs⟩ := List.forall_mem_cons.mp hvs
    obtain ⟨text, hadds, j, hspaced, hvalue⟩ := adds_calls hreals h v hv (awaits_outside wo false)
    obtain ⟨more, js, e', hadds', hvalues, htexts⟩ := adds_lines hreals h vs hvs
    refine ⟨_, j :: js, hwrites (hadds.append hadds'), ?_,
      Json.itemValues?_cons_iff.mpr ⟨_, _, hvalue, hvalues, rfl⟩⟩
    have hlines : Utf8.encodeString (String.ofList ((if false then ['\n'] else []) ++ text ++ more))
        = Utf8.encode text ++ Utf8.encode more := by
      simp [Utf8.encodeString]
    rw [hlines]
    exact htexts j _ hspaced

end

end Value

end Columnar
