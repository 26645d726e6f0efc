import Columnar.Proofs.Column.Accepts
import Columnar.Proofs.Column.Runs

/-!
# The push protocol

Which pushes a builder takes is told by the stack of its open containers, which the calls
so far determine.  The tree decides on two things beside it: whether the innermost record
knows a checked field, and whether a union can take one more kind of element.

## Main definitions

* `Builder.opened` — the containers that calls one after another leave open.
* `Builder.Allows` — the open containers, the depth limit and the innermost record allow a
  push.

## Main results

* `Builder.Opens.run` — **the tree and the depth follow the stack machine.**
* `Builder.push_protocol` — **a push is taken exactly if the stack allows it**, apart from
  full unions and unknown units of time.
-/

namespace Columnar

/-- A step changes the number of open containers by what the push opens or closes. -/
theorem Level.length_next (levels : List Level) (p : Push) :
    (next levels p).length = Builder.depthAfter p levels.length := by
  have hselect : (select levels p).length = levels.length := by
    unfold select
    split <;> rfl
  have hcomplete : ∀ ls : List Level, (complete ls).length = ls.length := by
    intro ls
    cases ls <;> rfl
  cases p <;> simp [next, opened?, Push.selects?, Push.closes?, Push.opens?, Builder.depthAfter,
    hselect, hcomplete]

namespace Column

/-- The level of the innermost column is the top of the stack. -/
theorem level?_innermost {c : Column} (hs : c.Sound) : c.innermost.level? = c.levels.head? := by
  induction c using Column.induct with
  | node c ih =>
    cases hd : c.inner? with
    | none =>
      rw [innermost_of_idle (by rw [hd]; nofun), levels_eq, hd]
      cases c.level? <;> rfl
    | some d =>
      have hmem := mem_children_of_inner? hd
      cases ha : d.isActive with
      | true =>
        rw [innermost_of_inner hd ha, ih d hmem (hs.children d hmem), levels_of_inner hd]
        obtain ⟨l, outer, he⟩ :=
          List.exists_cons_of_ne_nil (levels_ne_nil (hs.children d hmem) ha)
        rw [he]
        rfl
      | false =>
        rw [innermost_of_idle (by rw [hd]; rintro _ ⟨⟩; exact ha), levels_of_inner hd,
          levels_eq_nil ha]
        cases c.level? <;> rfl

theorem push_unitCode {o : Options} {p : Push} {code : String} (h : p.unitCode? = some code)
    (c : Column) : push o c p = refuse c p (.invalidTimeUnit code) := by
  cases p with
  | unknownUnit kind code' =>
    cases h
    cases c <;> rfl
  | _ => cases h

end Column

namespace Builder

/-! ### The stack of a run -/

/-- The containers that are open after a call. -/
def openedAfter (b : Builder) (levels : List Level) : Request → List Level
  | .push p =>
    match b.push p with
    | .ok _ => Level.next levels p
    | .error _ => levels
  | .clear => []
  | .finalize => levels
  | .setParameter _ _ => levels

/-- The containers that are open after calls one after another. -/
def opened (b : Builder) (levels : List Level) : List Request → List Level
  | [] => levels
  | call :: calls => (b.after call).opened (b.openedAfter levels call) calls

/-- A builder has containers open. -/
structure Opens (b : Builder) (levels : List Level) : Prop where
  /-- The tree is sound. -/
  sound : b.root.Sound
  /-- The containers are those that the tree has open. -/
  levels_eq : b.root.levels = levels
  /-- Their number is the depth. -/
  depth_eq : b.depth = levels.length

variable {b : Builder} {levels : List Level} {p : Push}

theorem opens_new (o : Options) : (new o).Opens [] :=
  ⟨Column.sound_unknown 0, Column.levels_eq_nil rfl, rfl⟩

theorem depth_push {b' : Builder} (h : b.push p = .ok b') : b'.depth = depthAfter p b.depth := by
  unfold push at h
  obtain ⟨options, root, parameters, isFinalized, depth⟩ := b
  split at h
  · cases h
  · simp only at h
    split at h <;> cases h
    rfl

theorem Opens.push {b' : Builder} (h : b.Opens levels) (hpush : b.push p = .ok b') :
    b'.Opens (Level.next levels p) := by
  have htakes := Column.takes_of_push h.sound (push_eq_ok hpush).1
  refine ⟨h.sound.takes htakes, ?_, ?_⟩
  · rw [(htakes.step h.sound).2, h.levels_eq]
  · rw [depth_push hpush, h.depth_eq, Level.length_next]

theorem Opens.after (h : b.Opens levels) (call : Request) :
    (b.after call).Opens (b.openedAfter levels call) := by
  cases call with
  | push p =>
    rcases after_push b p with ⟨b', hpush, hafter⟩ | ⟨⟨r, hpush⟩, hafter⟩
    · rw [hafter, openedAfter, hpush]
      exact h.push hpush
    · rw [hafter, openedAfter, hpush]
      exact h
  | clear =>
    have hclear := h.sound.clear
    exact ⟨hclear, Column.levels_eq_nil (Column.empty_clear b.root).2, rfl⟩
  | finalize => exact ⟨h.sound, h.levels_eq, h.depth_eq⟩
  | setParameter name value => exact ⟨h.sound, h.levels_eq, h.depth_eq⟩

/-- **The tree and the depth follow the stack machine**, whatever the calls are. -/
theorem Opens.run (h : b.Opens levels) (calls : List Request) :
    (b.run calls).Opens (b.opened levels calls) := by
  induction calls generalizing b levels with
  | nil => exact h
  | cons call calls ih => exact ih (h.after call)

/-! ### Acceptance -/

/-- A push may come next: the open containers allow it, it does not open one too many, and
the innermost record knows the field that it selects or may take it as a new one. -/
structure Allows (b : Builder) (levels : List Level) (p : Push) : Prop where
  /-- The stack machine has a step. -/
  step : Level.allows levels p = true
  /-- The depth limit. -/
  depth : p.opens?.isSome → levels.length < b.options.maxDepth
  /-- The fields of the innermost record. -/
  knows : b.root.innermost.knows p = true

/-- If the depth limit allows the push, the root decides on it. -/
theorem push_of_root (hf : b.isFinalized = false)
    (hd : p.opens?.isSome → b.depth < b.options.maxDepth) :
    (∀ root, b.root.push b.options p = .ok root → ∃ b', b.push p = .ok b') ∧
      ∀ r, b.root.push b.options p = .error r → ∃ s, b.push p = .error s ∧ s.error = r.error := by
  have hcause : b.cause? p = none := (cause?_eq_none_iff hf).mpr hd
  obtain ⟨options, root, parameters, isFinalized, depth⟩ := b
  refine ⟨fun root' hroot => ?_, fun r hroot => ?_⟩
  · simp only [push, hcause, hroot]
    exact ⟨_, rfl⟩
  · simp only [push, hcause, hroot]
    exact ⟨_, rfl, rfl⟩

theorem allows_iff (h : b.Opens levels) :
    b.Allows levels p
      ↔ (p.opens?.isSome → b.depth < b.options.maxDepth) ∧ b.root.Accepts p := by
  rw [h.depth_eq, Column.Accepts, h.levels_eq]
  constructor
  · rintro ⟨hstep, hdepth, hknows⟩
    exact ⟨hdepth, hstep, hknows⟩
  · rintro ⟨hdepth, hstep, hknows⟩
    exact ⟨hstep, hdepth, hknows⟩

/-- The outcome of a push of an open builder, whose unit of time is known: it is taken, it is
refused for a full union alone, or it is not allowed. -/
theorem Opens.push_cases (h : b.Opens levels) (hf : b.isFinalized = false)
    (hp : p.unitCode? = none) :
    (∃ b', b.push p = .ok b') ∧ b.Allows levels p ∧ ¬ b.root.IsFull p ∨
      ∃ r, b.push p = .error r ∧
        (r.error.cause = .unionOverflow ∧ b.Allows levels p ∧ b.root.IsFull p ∨
          r.error.cause ≠ .unionOverflow ∧ ¬ b.Allows levels p) := by
  rw [allows_iff h]
  by_cases hd : p.opens?.isSome → b.depth < b.options.maxDepth
  · obtain ⟨hok, herror⟩ := push_of_root hf hd
    cases hroot : b.root.push b.options p with
    | ok root =>
      have htakes := Column.takes_of_push h.sound hroot
      exact .inl ⟨hok root hroot, ⟨hd, htakes.accepts h.sound⟩, htakes.not_isFull⟩
    | error r =>
      obtain ⟨s, hpush, he⟩ := herror r hroot
      refine .inr ⟨s, hpush, ?_⟩
      rw [he]
      rcases Column.refuses_of_push h.sound hp hroot with ⟨hc, ha, hfull⟩ | ⟨hc, ha⟩
      · exact .inl ⟨hc, ⟨hd, ha⟩, hfull⟩
      · exact .inr ⟨hc, fun hacc => ha hacc.2⟩
  · have hcause : b.cause? p = some (.depthLimitExceeded b.options.maxDepth) := by
      rw [cause?, if_neg (by simp [hf]), if_pos (by simpa using hd)]
    refine .inr ⟨⟨b, ⟨p.word, _⟩⟩, by rw [Builder.push, hcause],
      .inr ⟨?_, fun hacc => hd hacc.1⟩⟩
    simp

theorem Opens.exists_ok_iff (h : b.Opens levels) (hf : b.isFinalized = false)
    (hp : p.unitCode? = none) :
    (∃ b', b.push p = .ok b') ↔ b.Allows levels p ∧ ¬ b.root.IsFull p := by
  rcases h.push_cases hf hp with ⟨hok, hacc⟩ | ⟨r, hpush, ⟨-, -, hfull⟩ | ⟨-, hacc⟩⟩
  · exact ⟨fun _ => hacc, fun _ => hok⟩
  · refine ⟨fun ⟨b', hok⟩ => ?_, fun hand => absurd hfull hand.2⟩
    rw [hpush] at hok
    cases hok
  · refine ⟨fun ⟨b', hok⟩ => ?_, fun hand => absurd hand.1 hacc⟩
    rw [hpush] at hok
    cases hok

theorem Opens.exists_overflow_iff (h : b.Opens levels) (hf : b.isFinalized = false)
    (hp : p.unitCode? = none) :
    (∃ r, b.push p = .error r ∧ r.error.cause = .unionOverflow)
      ↔ b.Allows levels p ∧ b.root.IsFull p := by
  rcases h.push_cases hf hp with ⟨⟨b', hok⟩, -, hfull⟩ | ⟨r, hpush, ⟨hc, hacc⟩ | ⟨hc, hacc⟩⟩
  · refine ⟨fun ⟨r, hpush, _⟩ => ?_, fun hand => absurd hand.2 hfull⟩
    rw [hok] at hpush
    cases hpush
  · exact ⟨fun _ => hacc, fun _ => ⟨r, hpush, hc⟩⟩
  · refine ⟨fun ⟨s, hs, hcs⟩ => ?_, fun hand => absurd hand.1 hacc⟩
    rw [hpush] at hs
    cases hs
    exact absurd hcs hc

/-- **A push is taken exactly if the stack machine allows it.**  In every state that calls
come to, and that is not sealed, the containers that the tree has open and their number are
what the calls make of an empty stack; a push is taken if and only if they allow it, and the
innermost record knows the field, and no full union is in the way; a full union is the cause
of the refusal exactly if nothing else is; and an unknown unit of time is refused as such. -/
theorem push_protocol (o : Options) (calls : List Request) (p : Push)
    (hopen : ((new o).run calls).isFinalized = false) :
    let b := (new o).run calls
    let levels := (new o).opened [] calls
    b.root.levels = levels ∧ b.root.innermost.level? = levels.head? ∧
      b.depth = levels.length ∧
      (p.unitCode? = none →
        ((∃ b', b.push p = .ok b') ↔ b.Allows levels p ∧ ¬ b.root.IsFull p) ∧
        ((∃ r, b.push p = .error r ∧ r.error.cause = .unionOverflow)
          ↔ b.Allows levels p ∧ b.root.IsFull p)) ∧
      ∀ code, p.unitCode? = some code →
        ∃ r, b.push p = .error r ∧ r.error.cause = .invalidTimeUnit code := by
  intro b levels
  have h : b.Opens levels := (opens_new o).run calls
  refine ⟨h.levels_eq, ?_, h.depth_eq, fun hp => ?_, fun code hp => ?_⟩
  · rw [Column.level?_innermost h.sound, h.levels_eq]
  · exact ⟨h.exists_ok_iff hopen hp, h.exists_overflow_iff hopen hp⟩
  · have hd : p.opens?.isSome → b.depth < b.options.maxDepth := by
      cases p <;> cases hp
      nofun
    obtain ⟨s, hpush, he⟩ := (push_of_root hopen hd).2 _ (Column.push_unitCode hp b.root)
    exact ⟨s, hpush, by rw [he]⟩

/-- In a tuple of two slots inside a list, of which the second is selected, a value may come
but not the end of the list. -/
theorem push_protocol_tupleInList :
    let calls : List Request := [.push .beginList, .push (.int 1), .push (.beginTuple 2),
      .push (.index 1), .push (.index 2)]
    ((new {}).run calls).root.levels = [.tuple 2 (some 1) ∅, .list] ∧
      (∃ b', ((new {}).run calls).push (.bool true) = .ok b') ∧
      ¬ ∃ b', ((new {}).run calls).push .endList = .ok b' := by
  intro calls
  have hvalue := push_protocol {} calls (.bool true) rfl
  have hend := push_protocol {} calls .endList rfl
  have hlevels : (new {}).opened [] calls = [.tuple 2 (some 1) ∅, .list] := by decide
  refine ⟨hvalue.1.trans hlevels, ⟨_, rfl⟩, fun hok => ?_⟩
  have hallows := ((hend.2.2.2.1 rfl).1.mp hok).1.step
  rw [hlevels] at hallows
  cases hallows

end Builder

end Columnar
