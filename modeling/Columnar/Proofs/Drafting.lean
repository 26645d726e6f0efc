import Mathlib.Data.List.Induction
import Columnar.Json.Feed
import Columnar.Proofs.Json.Lines
import Columnar.Proofs.Json.Unique

/-!
# Writers keep to a draft

Whatever calls come, a writer stands where the draft of its calls stands: it accepts the calls that
fit the draft, the others leave it as it is, and its lines are those of the draft.  The draft of
trees that carries this over from one call to the next does not depend on the layout, so the same
calls give the same tokens with and without lines.

## Main definitions

* `Draft.Leads` — calls lead the writer of one draft to that of another, in every layout.

## Main results

* `Draft.exists_leads_value`, `Draft.exists_leads_edge` — a step that fits leads to the next draft.
* `Draft.exists_leads_take` — so does any call, a complex number part by part.
* `TextWriter.exists_shows` — after any calls, a writer shows their draft.
* `TextWriter.run_ofCalls` — **a writer accepts what fits, and writes the values it is told to
  write.**
-/

namespace Columnar

open Encoder

namespace WriteOptions

/-- The text of a real means what the real denotes. -/
theorem exists_realStep_meansIn {o : WriteOptions} (hreals : o.reals.IsDocumented) (x : Binary64) :
    ∃ name text, o.realStep x = .value name text ∧ MeansIn {} text (o.realValue x) := by
  unfold realStep realValue
  split
  · next hfinite =>
    refine ⟨_, _, rfl, ?_⟩
    unfold realText textReal
    cases o.maxDecimals? with
    | none =>
      obtain ⟨p, hp, hl, hn⟩ := hreals.exists_literal hfinite
      exact meansIn_literal hp hl (by rw [hn]; rfl)
    | some decimals =>
      obtain ⟨p, hp, hl, hn⟩ := exists_literal_fixed x decimals
      exact meansIn_literal hp hl (by rw [hn]; rfl)
  · cases o.spelling? x with
    | some s => exact ⟨_, _, rfl, meansIn_quotedText {} s⟩
    | none => exact ⟨_, _, rfl, .null, .single (.word (.head _)), rfl⟩

end WriteOptions

namespace Call

variable {o : WriteOptions} {c : Call} {v : Value}

/-- Whether a call comes down to one step, which is not text that may be any. -/
def isSingle : Call → Bool
  | complex _ | json _ => false
  | _ => true

theorem beginsValue_of_value? (hv : c.value? o = some v) : c.beginsValue = true := by
  cases c with
  | endList | field | endRecord => cases hv
  | _ => rfl

/-- The text of a whole value is the same in every layout, and means the value. -/
theorem exists_meansIn (hreals : o.reals.IsDocumented) (hc : c.isSingle = true)
    (hv : c.value? o = some v) : ∃ name text,
    (∀ pretty indent, c.steps (o.withLayout pretty indent) = [.value name text]) ∧
      MeansIn {} text v := by
  cases c with
  | null =>
    cases hv
    exact ⟨_, _, fun _ _ => rfl, .null, .single (.word (.head _)), rfl⟩
  | bool b =>
    cases hv
    cases b with
    | true => exact ⟨_, _, fun _ _ => rfl, .bool true, .single (.word (.tail _ (.head _))), rfl⟩
    | false =>
      exact ⟨_, _, fun _ _ => rfl, .bool false, .single (.word (.tail _ (.tail _ (.head _)))), rfl⟩
  | int n =>
    cases hv
    exact ⟨_, _, fun _ _ => rfl, Value.meansIn_int {} n⟩
  | real x =>
    cases hv
    obtain ⟨name, text, hstep, hmeans⟩ := WriteOptions.exists_realStep_meansIn hreals x
    exact ⟨name, text, fun _ _ => congrArg (fun s => [s]) hstep, hmeans⟩
  | string s =>
    cases hv
    exact ⟨_, _, fun _ _ => rfl, meansIn_quotedText {} s⟩
  | complex | json => cases hc
  | beginList | endList | beginRecord | field | endRecord => cases hv

end Call

namespace Draft

variable {o : WriteOptions} {J J' J'' : Draft JsonString Json} {d : Draft String Value} {c : Call}
  {cs cs' : List Call}

/-- Calls lead the writer of one draft to that of another. -/
def LeadsIn (o : WriteOptions) (J : Draft JsonString Json) (cs : List Call)
    (J' : Draft JsonString Json) : Prop :=
  ∃ added, Adds o J.encoder cs J'.encoder added ∧
    ∀ bytes, Lines J.lines bytes → Lines J'.lines (bytes ++ Utf8.encode added)

theorem LeadsIn.nil (o : WriteOptions) (J : Draft JsonString Json) : LeadsIn o J [] J :=
  ⟨[], .nil _, fun bytes h => by rwa [Utf8.encode_nil, List.append_nil]⟩

theorem LeadsIn.append (h : LeadsIn o J cs J') (h' : LeadsIn o J' cs' J'') :
    LeadsIn o J (cs ++ cs') J'' := by
  obtain ⟨added, hadds, hlines⟩ := h
  obtain ⟨more, hadds', hlines'⟩ := h'
  refine ⟨added ++ more, hadds.append hadds', fun bytes hbytes => ?_⟩
  rw [Utf8.encode_append, ← List.append_assoc]
  exact hlines' _ (hlines bytes hbytes)

/-- In every layout, calls lead the writer of one draft to that of another. -/
def Leads (o : WriteOptions) (J : Draft JsonString Json) (cs : List Call)
    (J' : Draft JsonString Json) : Prop :=
  ∀ pretty indent, (o.withLayout pretty indent).IsBlank →
    LeadsIn (o.withLayout pretty indent) J cs J'

/-! ### One step -/

section

variable (ho : o.IsBlank)
include ho

/-- A whole value. -/
theorem leadsIn_put {j : Json} {name : String} {text : List Char} (hJ : J.fields? = none)
    (hc : c.steps o = [.value name text]) (hj : Spaced j.tokens (Utf8.encode text)) :
    LeadsIn o J [c] (J.put j) := by
  refine ⟨J.front o ++ text, ?_, fun bytes hbytes => ?_⟩
  · rw [encoder_put hJ]
    exact (awaits o hJ).adds_value hc
  · rw [lines_put hJ, Utf8.encode_append]
    exact lines_begin ho hJ hbytes hj

theorem leadsIn_beginList (hJ : J.fields? = none) :
    LeadsIn o J [.beginList] ⟨J.done, .list [] :: J.outer, none⟩ := by
  refine ⟨J.front o ++ ['['], .single ?_, fun bytes hbytes => ?_⟩
  · rw [call, Call.steps, steps_singleton, step, awaits o hJ]
    rfl
  · have hstart : Spaced (listTokens []) (Utf8.encode ['[']) := .single (.mark rfl)
    rw [Utf8.encode_append]
    exact lines_begin ho hJ hbytes hstart

theorem leadsIn_beginRecord (hJ : J.fields? = none) :
    LeadsIn o J [.beginRecord] ⟨J.done, J.outer, some []⟩ := by
  refine ⟨J.front o ++ ['\x7b'], .single ?_, fun bytes hbytes => ?_⟩
  · rw [call, Call.steps, steps_singleton, step, awaits o hJ]
    rfl
  · have hstart : Spaced (recordTokens []) (Utf8.encode ['\x7b']) := .single (.mark rfl)
    have hlines := lines_begin ho hJ hbytes hstart
    rwa [← Utf8.encode_append] at hlines

/-- A key. -/
theorem leadsIn_field {done : List Json} {outer : List (Enclosing JsonString Json)}
    {members : List (JsonString × Json)} {key : JsonString} {text : String}
    (hkey : Spells key.token (Utf8.encode (quotedText text))) :
    LeadsIn o ⟨done, outer, some members⟩ [.field text]
      ⟨done, .record members key :: outer, none⟩ := by
  refine ⟨_, .single (call_field o (inside ⟨done, outer, some members⟩) members.isEmpty text),
    fun bytes hbytes => ?_⟩
  have hcolon : Spaced [.colon] (Utf8.encode [':']) := .single (.mark rfl)
  have hbehind := hcolon.append (.nil (WriteOptions.isBlankText_behindKey o).encode)
  have hblank := (ho.newLine ((inside ⟨done, outer, some members⟩).stack.length + 1)).encode
  have hmember := (spaced_separator members.isEmpty).append
    (.blanks_append hblank ((Spaced.single hkey).append hbehind))
  have hlines := lines_extend hbytes hmember
  simp only [← Utf8.encode_append, List.append_assoc, List.singleton_append] at hlines ⊢
  exact hlines

/-- The end of a list. -/
theorem leadsIn_endList {done : List Json} {outer : List (Enclosing JsonString Json)}
    {items : List Json} :
    LeadsIn o ⟨done, .list items :: outer, none⟩ [.endList]
      (put ⟨done, outer, none⟩ (.array items)) := by
  refine ⟨lastLine o items.isEmpty outer.length ++ [']'], .single ?_, fun bytes hbytes => ?_⟩
  · rw [encoder_put rfl, call, Call.steps, steps_singleton]
    simp [encoder, inside, step, Enclosing.innermost]
  · rw [lines_put rfl, tokens_array, Utf8.encode_append]
    exact lines_extend hbytes (.blanks_append (ho.lastLine _ _).encode (.single (.mark rfl)))

/-- The end of a record. -/
theorem leadsIn_endRecord {done : List Json} {outer : List (Enclosing JsonString Json)}
    {members : List (JsonString × Json)} :
    LeadsIn o ⟨done, outer, some members⟩ [.endRecord]
      (put ⟨done, outer, none⟩ (.object members)) := by
  refine ⟨lastLine o members.isEmpty outer.length ++ ['\x7d'], .single ?_, fun bytes hbytes => ?_⟩
  · rw [encoder_put rfl, call, Call.steps, steps_singleton]
    simp [encoder, inside, step, enter]
  · rw [lines_put rfl, tokens_object, Utf8.encode_append]
    exact lines_extend hbytes (.blanks_append (ho.lastLine _ _).encode (.single (.mark rfl)))

end

/-! ### Any step -/

theorem take_of_value? {v : Value} (hv : c.value? o = some v) : d.take o c = d.put v := by
  cases c with
  | beginList | endList | beginRecord | field | endRecord | json => cases hv
  | _ =>
    cases hv
    rfl

section

variable (hreals : o.reals.IsDocumented)
include hreals

/-- A whole value that fits leads to the draft with the value. -/
theorem exists_leads_value {v : Value} (hJ : J.Means d) (hfits : d.fits c = true)
    (hc : c.isSingle = true) (hv : c.value? o = some v) :
    ∃ J', J'.Means (d.take o c) ∧ Leads o J [c] J' := by
  obtain ⟨name, text, hsteps, j, hspaced, hj⟩ := Call.exists_meansIn hreals hc hv
  rw [fits_of_beginsValue (Call.beginsValue_of_value? hv)] at hfits
  have hd : d.fields? = none := Option.isNone_iff_eq_none.mp hfits
  rw [take_of_value? hv]
  exact ⟨_, hJ.put hd hj, fun pretty indent ho =>
    leadsIn_put ho (hJ.fields?_eq_none hd) (hsteps pretty indent) hspaced⟩

omit hreals in
/-- An edge of a container that fits leads to the draft with this edge. -/
theorem exists_leads_edge (hJ : J.Means d) (hfits : d.fits c = true) (hc : c.isSingle = true)
    (hv : c.value? o = none) : ∃ J', J'.Means (d.take o c) ∧ Leads o J [c] J' := by
  obtain ⟨jdone, jouter, jfields?⟩ := J
  obtain ⟨done, outer, fields?⟩ := d
  obtain ⟨hdone, houter, hfields⟩ := hJ
  cases c with
  | null | bool | int | real | string => cases hv
  | complex | json => cases hc
  | beginList =>
    obtain rfl : fields? = none := Option.isNone_iff_eq_none.mp hfits
    cases hfields
    have hmeans : Means ⟨jdone, .list [] :: jouter, none⟩ ⟨done, .list [] :: outer, none⟩ :=
      ⟨hdone, .cons (.list rfl) houter, .none⟩
    exact ⟨_, hmeans, fun _ _ ho => leadsIn_beginList ho rfl⟩
  | beginRecord =>
    obtain rfl : fields? = none := Option.isNone_iff_eq_none.mp hfits
    cases hfields
    have hmeans : Means ⟨jdone, jouter, some []⟩ ⟨done, outer, some []⟩ :=
      ⟨hdone, houter, .some rfl⟩
    exact ⟨_, hmeans, fun _ _ ho => leadsIn_beginRecord ho rfl⟩
  | field key =>
    cases hfields with
    | none => cases hfits
    | @some members fields hmembers =>
      obtain ⟨name, hspells, htext⟩ := exists_jsonString key
      have hmeans : Means ⟨jdone, .record members name :: jouter, none⟩
          ⟨done, .record fields key :: outer, none⟩ :=
        ⟨hdone, .cons (.record hmembers htext) houter, .none⟩
      exact ⟨_, hmeans, fun _ _ ho => leadsIn_field ho hspells⟩
  | endRecord =>
    cases hfields with
    | none => cases hfits
    | @some members fields hmembers =>
      have hopen : Means ⟨jdone, jouter, none⟩ ⟨done, outer, none⟩ := ⟨hdone, houter, .none⟩
      have hvalue : (Json.object members).value? {} = some (.record none fields) := by
        rw [Json.value?, hmembers]
        rfl
      exact ⟨_, hopen.put rfl hvalue, fun _ _ ho => leadsIn_endRecord ho⟩
  | endList =>
    cases hfields with
    | some => cases hfits
    | none =>
      cases houter with
      | nil => cases hfits
      | @cons _ _ jouter outer hinner houter =>
        cases hinner with
        | record => cases hfits
        | @list items vs hitems =>
          have hopen : Means ⟨jdone, jouter, none⟩ ⟨done, outer, none⟩ := ⟨hdone, houter, .none⟩
          have hvalue : (Json.array items).value? {} = some (.list vs) := by
            rw [Json.value?, hitems]
            rfl
          exact ⟨_, hopen.put rfl hvalue, fun _ _ ho => leadsIn_endList ho⟩

/-- A call that fits leads to the next draft. -/
theorem exists_leads (hJ : J.Means d) (hfits : d.fits c = true) (hc : c.isSingle = true) :
    ∃ J', J'.Means (d.take o c) ∧ Leads o J [c] J' := by
  cases hv : c.value? o with
  | some v => exact exists_leads_value hreals hJ hfits hc hv
  | none => exact exists_leads_edge hJ hfits hc hv

/-! ### Complex numbers -/

/-- Calls that fit one after another. -/
def fitsAll (o : WriteOptions) (d : Draft String Value) : List Call → Bool
  | [] => true
  | c :: cs => d.fits c && (d.take o c).fitsAll o cs

/-- Calls that fit lead to the last of their drafts. -/
theorem exists_leads_foldl (hJ : J.Means d) (hfits : d.fitsAll o cs = true)
    (hcs : ∀ c ∈ cs, c.isSingle = true) :
    ∃ J', J'.Means (cs.foldl (take o) d) ∧ Leads o J cs J' := by
  induction cs generalizing J d with
  | nil => exact ⟨J, hJ, fun _ _ _ => .nil _ _⟩
  | cons c cs ih =>
    obtain ⟨hc, hcs⟩ := List.forall_mem_cons.mp hcs
    obtain ⟨hfirst, hrest⟩ := Bool.and_eq_true_iff.mp hfits
    obtain ⟨J₁, hJ₁, hleads⟩ := exists_leads hreals hJ hfirst hc
    obtain ⟨J', hJ', hleads'⟩ := ih hJ₁ hrest hcs
    exact ⟨J', hJ', fun pretty indent ho =>
      (hleads pretty indent ho).append (hleads' pretty indent ho)⟩

omit hreals in
/-- The parts of a complex number fit where it fits, and lead to the draft with its value. -/
theorem foldl_take_parts (hd : d.fields? = none) (z : Complex) :
    d.fitsAll o ((Call.complex z).parts o) = true ∧
      ((Call.complex z).parts o).foldl (take o) d = d.put (o.complexValue z) ∧
      ∀ c ∈ (Call.complex z).parts o, c.isSingle = true := by
  obtain ⟨done, outer, fields?⟩ := d
  obtain rfl : fields? = none := hd
  cases hre : o.complexReal? <;> cases him : o.complexImag?
  all_goals
    simp only [Call.parts, WriteOptions.complexValue, hre, him]
    exact ⟨rfl, rfl, by simp [Call.isSingle]⟩

omit hreals in
theorem Leads.complex {z : Complex} (h : Leads o J ((Call.complex z).parts o) J') :
    Leads o J [.complex z] J' := by
  intro pretty indent ho
  obtain ⟨added, hadds, hlines⟩ := h pretty indent ho
  exact ⟨added, .single (call_of_adds_parts hadds), hlines⟩

/-- Any call that fits leads to the next draft, but for text that may be any. -/
theorem exists_leads_take (hJ : J.Means d) (hfits : d.fits c = true) (hc : c.isFragment = false) :
    ∃ J', J'.Means (d.take o c) ∧ Leads o J [c] J' := by
  cases c with
  | complex z =>
    have hd : d.fields? = none := Option.isNone_iff_eq_none.mp hfits
    obtain ⟨hall, hput, hsingle⟩ := foldl_take_parts (o := o) hd z
    obtain ⟨J', hJ', hleads⟩ := exists_leads_foldl hreals hJ hall hsingle
    rw [hput] at hJ'
    exact ⟨J', hJ', hleads.complex⟩
  | json => cases hc
  | _ => exact exists_leads hreals hJ hfits rfl

end

theorem ofCalls_append_singleton (o : WriteOptions) (cs : List Call) (c : Call) :
    ofCalls o (cs ++ [c]) = (ofCalls o cs).after o c := by
  rw [ofCalls, List.foldl_append]
  rfl

end Draft

/-! ### Writers -/

namespace TextWriter

variable {o : WriteOptions} {w : TextWriter} {J J' : Draft JsonString Json} {c : Call}

/-- A writer stands where a draft stands, and its lines are those of the draft. -/
structure Shows (w : TextWriter) (J : Draft JsonString Json) : Prop where
  encoder : w.encoder = J.encoder
  lines : Lines J.lines (Utf8.encodeString w.text)

theorem shows_new (o : WriteOptions) : (new o).Shows .blank := ⟨rfl, .nil⟩

theorem run_append_singleton (w : TextWriter) (cs : List Call) (c : Call) :
    w.run (cs ++ [c]) = ((w.run cs).attempt c).1 := by simp [run]

theorem run_options (w : TextWriter) (cs : List Call) : (w.run cs).options = w.options := by
  induction cs generalizing w with
  | nil => rfl
  | cons c cs ih => rw [run_cons, ih, attempt_options]

/-- A call that leads to another draft is accepted, and the writer shows that draft. -/
theorem Shows.attempt (h : w.Shows J) (hleads : Draft.LeadsIn w.options J [c] J') :
    (w.attempt c).2 = none ∧ (w.attempt c).1.Shows J' := by
  obtain ⟨added, hadds, hlines⟩ := hleads
  rw [attempt_eq, call, h.encoder, hadds.call]
  refine ⟨rfl, rfl, ?_⟩
  have htext : Utf8.encodeString (w.text ++ String.ofList added)
      = Utf8.encodeString w.text ++ Utf8.encode added := by simp [Utf8.encodeString]
  rw [htext]
  exact hlines _ h.lines

/-- The calls that fit are accepted. -/
theorem Shows.attempt_eq_none_iff (h : w.Shows J) (c : Call) :
    (w.attempt c).2 = none ↔ J.fits c = true := by
  rw [← J.exists_call_iff w.options c, attempt_eq, call, h.encoder]
  cases J.encoder.call w.options c <;> simp

/-- A rejected call changes nothing. -/
theorem attempt_of_rejected (h : (w.attempt c).2 ≠ none) : (w.attempt c).1 = w := by
  rw [attempt_eq] at h ⊢
  cases hcall : w.call c with
  | ok w' => simp [hcall] at h
  | error m => rfl

/-- After any calls, a writer shows their draft, in every layout the same. -/
theorem exists_shows (hreals : o.reals.IsDocumented) {cs : List Call}
    (hcs : ∀ c ∈ cs, c.isFragment = false) :
    ∃ J : Draft JsonString Json, J.Means (.ofCalls o cs) ∧
      ∀ pretty indent, (o.withLayout pretty indent).IsBlank →
        ((new (o.withLayout pretty indent)).run cs).Shows J := by
  induction cs using List.reverseRecOn with
  | nil => exact ⟨.blank, Draft.means_blank, fun _ _ _ => shows_new _⟩
  | append_singleton cs c ih =>
    obtain ⟨hcs, hc⟩ := List.forall_mem_append.mp hcs
    obtain ⟨J, hJ, hshows⟩ := ih hcs
    have hc : c.isFragment = false := hc c List.mem_cons_self
    simp only [Draft.ofCalls_append_singleton, run_append_singleton, Draft.after]
    split
    · next hfits =>
      obtain ⟨J', hJ', hleads⟩ := Draft.exists_leads_take hreals hJ hfits hc
      refine ⟨J', hJ', fun pretty indent ho => ?_⟩
      refine ((hshows pretty indent ho).attempt ?_).2
      rw [run_options]
      exact hleads pretty indent ho
    · next hfits =>
      refine ⟨J, hJ, fun pretty indent ho => ?_⟩
      have h := hshows pretty indent ho
      rw [attempt_of_rejected fun hnone => ?_]
      · exact h
      · rw [h.attempt_eq_none_iff, hJ.fits_eq] at hnone
        exact hfits hnone

/-- **A writer accepts what fits, and writes the values it is told to write.**  After any calls
without fragments, exactly the calls that fit their draft are accepted, and the others change
nothing.  The tokens of the text are the same in every layout; they stand on lines, and where
nothing is open, these are the lines of JSON values which mean the values of the draft.  Reals are
spelled by any library that does what it is said to do. -/
theorem run_ofCalls {o : WriteOptions} (hreals : o.reals.IsDocumented) {cs : List Call}
    (hcs : ∀ c ∈ cs, c.isFragment = false) :
    let d := Draft.ofCalls o cs
    ∃ tss : List (List Token),
      (d.IsClosed → ∃ js : List Json, tss = js.map Json.tokens ∧
        Json.itemValues? {} js = some d.done ∧
        ∀ js' : List Json, js'.flatMap Json.tokens = tss.flatten →
          Json.itemValues? {} js' = some d.done) ∧
      ∀ pretty indent, (o.withLayout pretty indent).IsBlank →
        let w := (TextWriter.new (o.withLayout pretty indent)).run cs
        (∀ c, (w.attempt c).2 = none ↔ d.fits c = true) ∧
          (∀ c, d.fits c = false → (w.attempt c).1 = w) ∧
          Lines tss (Utf8.encodeString w.text) ∧
          ∃ us offset, tokensOf (Utf8.encodeString w.text) = ⟨us, .finished offset⟩ ∧
            us.map Located.token = tss.flatten := by
  intro d
  obtain ⟨J, hJ, hshows⟩ := exists_shows hreals hcs
  refine ⟨J.lines, fun hclosed => ?_, fun pretty indent ho => ?_⟩
  · have hlines : J.lines = J.done.map Json.tokens := hJ.lines_of_isClosed hclosed
    refine ⟨J.done, hlines, hJ.done, fun js' hjs' => ?_⟩
    rw [hlines, ← List.flatMap_def] at hjs'
    rw [Json.itemValues?_congr {} hjs', hJ.done]
  · intro w
    have h : w.Shows J := hshows pretty indent ho
    have haccepts : ∀ c, (w.attempt c).2 = none ↔ d.fits c = true := fun c => by
      rw [h.attempt_eq_none_iff, hJ.fits_eq]
    refine ⟨haccepts, fun c hc => attempt_of_rejected fun hnone => ?_, h.lines, ?_⟩
    · rw [haccepts, hc] at hnone
      cases hnone
    · obtain ⟨us, offset, htokens, hlex⟩ := h.lines.lex_eq J.parted_lines 0
      exact ⟨us, offset, by rw [tokensOf, hlex]; rfl, htokens⟩

/-- A record with a list in it, of a missing value and a real, and a truth value behind it; the end
of the record is called for too early at first. -/
theorem run_ofCalls_recordAndBool :
    let x : Binary64 := ⟨0x3fb999999999999a⟩
    let cs : List Call := [.beginRecord, .field "k", .endRecord, .beginList, .null, .real x,
      .endList, .endRecord, .bool true]
    let o : WriteOptions := WriteOptions.withLayout {} true "\t"
    (∀ c ∈ cs, c.isFragment = false) ∧ (Draft.ofCalls {} cs).IsClosed ∧ o.IsBlank ∧
      ∃ js : List Json,
        Json.itemValues? {} js = some [.record none [("k", .list [.null, .real x])], .bool true] ∧
          Lines (js.map Json.tokens) (Utf8.encodeString ((TextWriter.new o).run cs).text) := by
  intro x cs o
  have hcs : ∀ c ∈ cs, c.isFragment = false := by decide
  have hdraft : Draft.ofCalls {} cs
      = ⟨[.record none [("k", .list [.null, .real x])], .bool true], [], none⟩ := rfl
  have hclosed : (Draft.ofCalls {} cs).IsClosed := ⟨rfl, rfl⟩
  have hblank : o.IsBlank := by simp [o, WriteOptions.IsBlank, WriteOptions.withLayout, IsBlankText]
  obtain ⟨tss, htrees, hwrites⟩ := @run_ofCalls {} (RealLibrary.isDocumented_shortest _) cs hcs
  obtain ⟨js, rfl, hvalues, -⟩ := htrees hclosed
  rw [hdraft] at hvalues
  exact ⟨hcs, hclosed, hblank, js, hvalues, (hwrites true "\t" hblank).2.2.1⟩

end TextWriter

end Columnar
