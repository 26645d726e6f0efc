import Columnar.Json.TextWriter
import Columnar.Proofs.Json.Adds

/-!
# Calls in place

A writer could carry out the steps of a call in place: each changes the open containers and the
text, and the first that is rejected ends the call.  A call of several steps, a complex number,
could then stop in its middle and leave half of a value behind.  It never does: only the first step
of a call can be rejected, and a rejected step changes nothing.  So a writer that works in place is
the writer that lets none of the steps of a rejected call count.

## Main definitions

* `Encoder.carryOut` — steps in place, up to the first that is rejected.
* `TextWriter.attempt`, `TextWriter.run` — a writer after a call in place, and after many.
* `Call.parts` — the calls that write a complex number bit by bit.

## Main results

* `Encoder.call_of_adds_parts` — a complex number adds what its parts add.
* `Encoder.carryOut_steps` — **a rejected call leaves no trace.**
-/

namespace Columnar

/-! ### The parts of a complex number -/

/-- The calls that write a call bit by bit. -/
def Call.parts (o : WriteOptions) : Call → List Call
  | .complex z =>
    match o.complexReal?, o.complexImag? with
    | some re, some im =>
      .beginRecord :: [.field re, .real z.re, .field im, .real z.im] ++ [.endRecord]
    | _, _ => .beginList :: [.real z.re, .real z.im] ++ [.endList]
  | c => [c]

theorem Call.flatMap_steps_parts (o : WriteOptions) (c : Call) :
    (c.parts o).flatMap (·.steps o) = c.steps o := by
  cases c with
  | complex z => cases hre : o.complexReal? <;> cases him : o.complexImag? <;>
      simp [parts, steps, WriteOptions.complexSteps, hre, him]
  | _ => simp [parts]

/-- The step of a real writes a whole value. -/
theorem WriteOptions.exists_realStep (o : WriteOptions) (x : Binary64) :
    ∃ name text, o.realStep x = .value name text := by
  unfold realStep
  split
  · exact ⟨_, _, rfl⟩
  · split <;> exact ⟨_, _, rfl⟩

/-- Whether a call begins with a value or a container. -/
def Call.beginsValue : Call → Bool
  | .endList | .field _ | .endRecord => false
  | _ => true

namespace Encoder

variable {o : WriteOptions} {e e₁ e' : Encoder} {ss ss' : List Step} {c : Call} {cs : List Call}
  {added more : List Char} {m : Misuse}

theorem steps_cons_iff {s : Step} : e.steps o (s :: ss) = .ok (e', added) ↔
    ∃ e₁ text more, e.step o s = .ok (e₁, text) ∧ e₁.steps o ss = .ok (e', more) ∧
      added = text ++ more := by
  rw [steps]
  cases e.step o s with
  | error m => simp
  | ok r =>
    obtain ⟨e₁, text⟩ := r
    constructor
    · intro h
      cases hss : e₁.steps o ss with
      | error m => simp [Except.map, hss] at h
      | ok r =>
        simp only [hss, Except.map, Except.ok.injEq, Prod.mk.injEq] at h
        exact ⟨e₁, text, r.2, rfl, by rw [hss, ← h.1], h.2.symm⟩
    · rintro ⟨e₁', text', more, h, hss, rfl⟩
      obtain ⟨rfl, rfl⟩ := Prod.mk.inj (Except.ok.inj h)
      simp only [hss, Except.map]

theorem steps_append (h : e.steps o ss = .ok (e₁, added))
    (h' : e₁.steps o ss' = .ok (e', more)) : e.steps o (ss ++ ss') = .ok (e', added ++ more) := by
  induction ss generalizing e added with
  | nil =>
    obtain ⟨rfl, rfl⟩ := Prod.mk.inj (Except.ok.inj h)
    exact h'
  | cons s ss ih =>
    obtain ⟨e₂, text, rest, hs, hss, rfl⟩ := steps_cons_iff.mp h
    exact steps_cons_iff.mpr ⟨e₂, text, rest ++ more, hs, ih hss, List.append_assoc ..⟩

theorem Adds.steps (h : Adds o e cs e' added) :
    e.steps o (cs.flatMap (·.steps o)) = .ok (e', added) := by
  induction h with
  | nil e => rfl
  | cons hc _ ih => exact steps_append hc ih

theorem Adds.call (h : Adds o e [c] e' added) : e.call o c = .ok (e', added) := by
  obtain _ | ⟨hc, _ | _⟩ := h
  rwa [List.append_nil]

/-- A complex number adds what its parts add. -/
theorem call_of_adds_parts (h : Adds o e (c.parts o) e' added) : e.call o c = .ok (e', added) := by
  rw [call, ← c.flatMap_steps_parts o, h.steps]

/-! ### Steps in place -/

/-- Steps carried out in place up to the first that is rejected: the open containers and the text
as the steps before it have left them, and why it was rejected. -/
def carryOut (o : WriteOptions) (e : Encoder) (text : List Char) :
    List Step → Encoder × List Char × Option Misuse
  | [] => (e, text, none)
  | s :: rest =>
    match e.step o s with
    | .ok (e, added) => carryOut o e (text ++ added) rest
    | .error m => (e, text, some m)

theorem carryOut_of_ok (h : e.steps o ss = .ok (e', added)) (text : List Char) :
    e.carryOut o text ss = (e', text ++ added, none) := by
  induction ss generalizing e text added with
  | nil =>
    obtain ⟨rfl, rfl⟩ := Prod.mk.inj (Except.ok.inj h)
    simp [carryOut]
  | cons s ss ih =>
    obtain ⟨e₁, front, rest, hs, hss, rfl⟩ := steps_cons_iff.mp h
    rw [carryOut, hs, ← List.append_assoc]
    exact ih hss _

theorem carryOut_of_error {s : Step} (h : e.step o s = .error m) (text : List Char) :
    e.carryOut o text (s :: ss) = (e, text, some m) := by
  rw [carryOut, h]

/-- A call whose first step is rejected. -/
theorem call_of_error {s : Step} (hc : c.steps o = s :: ss) (h : e.step o s = .error m) :
    e.call o c = .error m := by
  rw [call, hc, steps, h]

/-- A value may come next, or it is rejected under the name of its call. -/
theorem awaits_or_error (o : WriteOptions) (e : Encoder) :
    (∃ e₁ before, Awaits o e e₁ before) ∨
      ∀ name, e.beforeValue o name = .error (.valueWithoutKey name) := by
  obtain ⟨stack, hasValues⟩ := e
  rcases stack with - | ⟨isEmpty | ⟨isEmpty, - | -⟩, outer⟩
  · exact .inl ⟨_, _, awaits_outside o hasValues⟩
  · exact .inl ⟨_, _, fun _ => rfl⟩
  · exact .inr fun _ => rfl
  · exact .inl ⟨_, _, fun _ => rfl⟩

section

variable {before : List Char}

/-- A real is written where any value may come. -/
theorem adds_real (h : Awaits o e e₁ before) (x : Binary64) :
    ∃ text, Adds o e [.real x] e₁ (before ++ text) := by
  obtain ⟨name, text, hstep⟩ := o.exists_realStep x
  exact ⟨text, h.adds_value (congrArg (fun s => [s]) hstep)⟩

/-- Where the first of the parts of a complex number fits, all of them do. -/
theorem adds_complex (h : Awaits o e e₁ before) (z : Complex) :
    ∃ added, Adds o e ((Call.complex z).parts o) e₁ added := by
  rw [Call.parts]
  split
  · next re im _ _ =>
    obtain ⟨t, ht⟩ := adds_real (awaits_record o e₁ false) z.re
    obtain ⟨u, hu⟩ := adds_real (awaits_record o e₁ false) z.im
    exact ⟨_, h.adds_record (.cons (call_field o e₁ true re)
      (ht.append (.cons (call_field o e₁ false im) hu)))⟩
  · obtain ⟨t, ht⟩ := adds_real (awaits_list o e₁ true) z.re
    obtain ⟨u, hu⟩ := adds_real (awaits_list o e₁ false) z.im
    exact ⟨_, h.adds_list (ht.append hu)⟩

/-- Where a value may come, a call that begins one is accepted. -/
theorem exists_call (h : Awaits o e e₁ before) (hc : c.beginsValue = true) :
    ∃ r, e.call o c = .ok r := by
  cases c with
  | real x =>
    obtain ⟨text, hadds⟩ := adds_real h x
    exact ⟨_, hadds.call⟩
  | complex z =>
    obtain ⟨text, hadds⟩ := adds_complex h z
    exact ⟨_, call_of_adds_parts hadds⟩
  | beginList | beginRecord =>
    rw [call, Call.steps, steps_singleton, step, h]
    exact ⟨_, rfl⟩
  | endList | field | endRecord => cases hc
  | _ => exact ⟨_, (h.adds_value rfl).call⟩

end

/-- Where no value may come, the first step of a call that begins one is rejected. -/
theorem exists_step_eq_error (h : ∀ name, e.beforeValue o name = .error (.valueWithoutKey name))
    (hc : c.beginsValue = true) :
    ∃ s ss m, c.steps o = s :: ss ∧ e.step o s = .error m := by
  have hvalue : ∀ name text, e.step o (.value name text) = .error (.valueWithoutKey name) :=
    fun name text => by rw [step, h]; rfl
  have hlist : e.step o .beginList = .error (.valueWithoutKey "begin_list") := by
    rw [step, h]
    rfl
  have hrecord : e.step o .beginRecord = .error (.valueWithoutKey "begin_record") := by
    rw [step, h]
    rfl
  cases c with
  | real x =>
    obtain ⟨name, text, hstep⟩ := o.exists_realStep x
    exact ⟨_, [], _, rfl, by rw [hstep, hvalue]⟩
  | complex z =>
    simp only [Call.steps, WriteOptions.complexSteps]
    split
    · exact ⟨_, _, _, rfl, hrecord⟩
    · exact ⟨_, _, _, rfl, hlist⟩
  | beginList => exact ⟨_, [], _, rfl, hlist⟩
  | beginRecord => exact ⟨_, [], _, rfl, hrecord⟩
  | endList | field | endRecord => cases hc
  | _ => exact ⟨_, [], _, rfl, hvalue _ _⟩

/-- **A rejected call leaves no trace**, though its steps are carried out in place. -/
theorem carryOut_steps (o : WriteOptions) (e : Encoder) (text : List Char) (c : Call) :
    e.carryOut o text (c.steps o) =
      match e.call o c with
      | .ok (e', added) => (e', text ++ added, none)
      | .error m => (e, text, some m) := by
  cases h : e.call o c with
  | ok r => exact carryOut_of_ok h text
  | error m =>
    -- the first step of the call is rejected: it is the only one, or the one that begins a value
    have hfirst : ∃ s ss, c.steps o = s :: ss ∧ e.step o s = .error m := by
      cases hc : c.beginsValue with
      | true =>
        rcases awaits_or_error o e with ⟨e₁, before, hawaits⟩ | herror
        · obtain ⟨r, hr⟩ := exists_call hawaits hc
          simp [hr] at h
        · obtain ⟨s, ss, m', hsteps, hs⟩ := exists_step_eq_error herror hc
          rw [call_of_error hsteps hs] at h
          exact ⟨s, ss, hsteps, by rw [hs, h]⟩
      | false =>
        cases c with
        | endList | field | endRecord =>
          exact ⟨_, [], rfl, by rwa [call, Call.steps, steps_singleton] at h⟩
        | _ => cases hc
    obtain ⟨s, ss, hsteps, hs⟩ := hfirst
    rw [hsteps]
    exact carryOut_of_error hs text

end Encoder

/-! ### Writers in place -/

namespace TextWriter

/-- The writer after a call that is carried out in place, and why it was rejected. -/
def attempt (w : TextWriter) (c : Call) : TextWriter × Option Misuse :=
  let (encoder, text, misuse?) := w.encoder.carryOut w.options w.text.toList (c.steps w.options)
  (⟨w.options, encoder, String.ofList text⟩, misuse?)

/-- The writer after calls one after another, rejected ones among them. -/
def run (w : TextWriter) (cs : List Call) : TextWriter :=
  cs.foldl (fun w c => (w.attempt c).1) w

theorem attempt_eq (w : TextWriter) (c : Call) :
    w.attempt c = match w.call c with
      | .ok w' => (w', none)
      | .error m => (w, some m) := by
  rw [attempt, call, Encoder.carryOut_steps]
  cases w.encoder.call w.options c with
  | ok r => simp [String.ofList_append]
  | error m => simp

@[simp] theorem attempt_options (w : TextWriter) (c : Call) :
    (w.attempt c).1.options = w.options := rfl

@[simp] theorem run_nil (w : TextWriter) : w.run [] = w := rfl

@[simp] theorem run_cons (w : TextWriter) (c : Call) (cs : List Call) :
    w.run (c :: cs) = (w.attempt c).1.run cs := rfl

end TextWriter

end Columnar
