import Mathlib.Data.List.Induction
import Columnar.Proofs.Column.Preservation
import Columnar.Proofs.Column.Refusal

/-!
# Runs of a builder

A builder is used by calls one after another: pushes, of which some are refused, clearing,
sealing, and annotations.  What every call preserves holds in every state that a builder
comes to, whatever the order of the calls.

## Main definitions

* `Builder.Request` — a call that may change a builder.
* `Builder.after`, `Builder.run` — the builder after one call, and after several.

## Main results

* `Builder.exists_run_pushAll` — a batch of pushes comes to a state that single pushes
  come to.
* `Builder.nodeSound_run` — **every node of a builder is sound in every state.**
-/

namespace Columnar.Builder

/-- A call that may change a builder. -/
inductive Request
  /-- A push, taken or refused. -/
  | push (p : Push)
  /-- Removes all elements. -/
  | clear
  /-- Seals the builder. -/
  | finalize
  /-- Sets an annotation of the root. -/
  | setParameter (name : String) (value : Document)

/-- The builder after a call. -/
def after (b : Builder) : Request → Builder
  | .push p => (b.push p).state
  | .clear => b.clear
  | .finalize => (b.finalize []).1
  | .setParameter name value => b.setParameter name value

/-- The builder after calls one after another. -/
def run (b : Builder) (calls : List Request) : Builder := calls.foldl after b

@[simp] theorem run_nil (b : Builder) : b.run [] = b := rfl

@[simp] theorem run_cons (b : Builder) (call : Request) (calls : List Request) :
    b.run (call :: calls) = (b.after call).run calls := rfl

theorem run_concat (b : Builder) (calls : List Request) (call : Request) :
    b.run (calls ++ [call]) = (b.run calls).after call := by
  rw [run, List.foldl_append]
  rfl

/-! ### What one call does -/

/-- A push that is taken is taken by the root, and nothing but the depth changes beside it. -/
theorem push_eq_ok {b b' : Builder} {p : Push} (h : b.push p = .ok b') :
    b.root.push b.options p = .ok b'.root ∧ b'.options = b.options ∧
      b'.parameters = b.parameters := by
  unfold push at h
  obtain ⟨options, root, parameters, isFinalized, depth⟩ := b
  split at h
  · cases h
  · simp only at h
    split at h
    · next hroot =>
      cases h
      exact ⟨hroot, rfl, rfl⟩
    · cases h

/-- A push is taken, or the builder stays as it is. -/
theorem after_push (b : Builder) (p : Push) :
    (∃ b', b.push p = .ok b' ∧ b.after (.push p) = b') ∨
      (∃ r, b.push p = .error r) ∧ b.after (.push p) = b := by
  cases h : b.push p with
  | ok b' => exact .inl ⟨b', rfl, by rw [after, h]; rfl⟩
  | error r =>
    refine .inr ⟨⟨r, rfl⟩, ?_⟩
    rw [after, h]
    exact keeps_push b p r h

theorem options_after (b : Builder) (call : Request) : (b.after call).options = b.options := by
  cases call with
  | push p =>
    rcases after_push b p with ⟨b', hpush, hafter⟩ | ⟨-, hafter⟩
    · rw [hafter]
      exact (push_eq_ok hpush).2.1
    · rw [hafter]
  | clear | finalize | setParameter => rfl

theorem options_run (b : Builder) (calls : List Request) : (b.run calls).options = b.options := by
  induction calls using List.reverseRecOn with
  | nil => rfl
  | append_singleton calls call ih => rw [run_concat, options_after, ih]

/-- Pushes in a batch, up to the first that is refused, come to a state that a run of some of
them comes to. -/
theorem exists_run_pushAll (b : Builder) (ps : List Push) :
    ∃ taken, taken <+: ps ∧ (b.pushAll ps).state = b.run (taken.map .push) := by
  induction ps generalizing b with
  | nil => exact ⟨[], List.prefix_refl _, rfl⟩
  | cons p ps ih =>
    cases h : b.push p with
    | error r =>
      refine ⟨[], List.nil_prefix, ?_⟩
      rw [pushAll_cons_error h]
      exact keeps_push b p r h
    | ok b' =>
      obtain ⟨taken, hprefix, heq⟩ := ih b'
      refine ⟨p :: taken, List.cons_prefix_cons.mpr ⟨rfl, hprefix⟩, ?_⟩
      rw [pushAll_cons_ok h, heq, List.map_cons, run_cons, after, h]
      rfl

/-! ### Soundness -/

/-- A call leaves a sound tree sound. -/
theorem sound_after {b : Builder} (h : b.root.Sound) (call : Request) :
    (b.after call).root.Sound := by
  cases call with
  | push p =>
    -- a push that is taken follows the rules, and the rules keep trees sound
    rcases after_push b p with ⟨b', hpush, hafter⟩ | ⟨-, hafter⟩
    · rw [hafter]
      exact h.takes (Column.takes_of_push h (push_eq_ok hpush).1)
    · rwa [hafter]
  | clear => exact h.clear
  | finalize => exact h
  | setParameter name value => exact h

theorem sound_run_of_sound {b : Builder} (h : b.root.Sound) (calls : List Request) :
    (b.run calls).root.Sound := by
  induction calls generalizing b with
  | nil => exact h
  | cons call calls ih => exact ih (sound_after h call)

theorem sound_run (o : Options) (calls : List Request) : ((new o).run calls).root.Sound :=
  sound_run_of_sound (Column.sound_unknown 0) calls

/-- **Every node of a builder is sound**, in every state that calls come to: offsets, places
and tags count the elements of the columns below, up to the one that is open there. -/
theorem nodeSound_run (o : Options) (calls : List Request) {d : Column}
    (hd : d.IsNode ((new o).run calls).root) : d.NodeSound :=
  (sound_run o calls).of_isNode hd

/-- A union below an open list, of which the second child is an open tuple. -/
theorem nodeSound_run_union :
    Column.UnionSound #[0, 1] #[0, 0]
      [.bool #[true], .tuple [.unknown 0, .unknown 0] 0 (.filling none)] (some 1) :=
  nodeSound_run {} [.push .beginList, .push (.bool true), .push .endTuple, .push (.beginTuple 2)]
    (.child (List.mem_singleton_self _) (.root _))

end Columnar.Builder
