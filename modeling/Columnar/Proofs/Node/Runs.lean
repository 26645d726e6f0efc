import Columnar.Node.Builder
import Columnar.Proofs.Annotations
import Columnar.Proofs.Node.Columns

/-!
# Runs of a builder of nodes

A builder of nodes is used by the same calls as a builder of columns.  After each of them all
nodes keep the settings of the builder, the root keeps the annotations that calls have set, and no
node below the root keeps any.  So the two builders stay in step:  they answer alike, and what one
of them writes the other writes too.

## Main definitions

* `NodeBuilder.after`, `NodeBuilder.run` — the builder after one call, and after several.
* `NodeBuilder.answers` — what pushes are answered.

## Main results

* `NodeBuilder.carries_run` — what the nodes keep in every state.
* `NodeBuilder.builder_run` — a run of nodes is a run of columns.
* `NodeBuilder.annotations_run` — **annotations follow the root, and nothing else depends on them.**
-/

namespace Columnar.NodeBuilder

open Builder (Request settings)

/-- The builder after a call. -/
def after (b : NodeBuilder) : Request → NodeBuilder
  | .push p => (b.push p).state
  | .clear => b.clear
  | .finalize => (b.finalize []).1
  | .setParameter name value => b.setParameter name value

/-- The builder after calls one after another. -/
def run (b : NodeBuilder) (calls : List Request) : NodeBuilder := calls.foldl after b

/-- What the pushes of a run are answered, in order: nothing, or why they are refused. -/
def answers (b : NodeBuilder) : List Request → List (Option PushError)
  | [] => []
  | .push p :: calls => (b.push p).refusal? :: (b.after (.push p)).answers calls
  | call :: calls => (b.after call).answers calls

theorem run_concat (b : NodeBuilder) (calls : List Request) (call : Request) :
    b.run (calls ++ [call]) = (b.run calls).after call := by
  rw [run, List.foldl_append]
  rfl

/-- A builder whose nodes keep its settings, and annotations at the root alone, and whose elements
are sound. -/
structure InStep (b : NodeBuilder) (ps : Parameters) : Prop where
  carries : b.root.Carries b.options ps
  sound : b.root.column.Sound

variable {b : NodeBuilder} {ps : Parameters}

/-! ### Pushes -/

theorem options_push (b : NodeBuilder) (p : Push) : (b.push p).state.options = b.options := by
  unfold push
  split
  · rfl
  · split <;> rfl

/-- The root is what comes back from a push into it, unless the builder refuses the push before
it gets there. -/
theorem root_push (b : NodeBuilder) (p : Push) :
    (b.push p).state.root = b.root ∨ (b.push p).state.root = (b.root.push p).state := by
  unfold push
  split
  · exact .inl rfl
  · cases b.root.push p <;> exact .inr rfl

theorem carries_push (h : b.root.Carries b.options ps) (p : Push) :
    (b.push p).state.root.Carries b.options ps := by
  rcases root_push b p with hroot | hroot
  · rw [hroot]
    exact h
  · rw [hroot]
    exact Node.carries_push b.root h p

/-- A push does to the nodes what it does to the columns. -/
theorem InStep.builder_push (h : b.InStep ps) (p : Push) :
    (b.push p).inside builder = b.builder.push p := by
  have hpush : b.root.column.push b.options p = (b.root.push p).inside Node.column :=
    (Node.column_push b.root h.carries h.sound p).symm
  have hlabel : (b.root.push p).state.label = b.root.label := by
    rw [(Node.carries_push b.root h.carries p).label, h.carries.label]
  have hcause : Builder.cause? ⟨b.options, b.root.column, b.root.label.parameters, b.isFinalized,
      b.depth⟩ p = b.builder.cause? p := rfl
  rw [push, Builder.push, builder, hcause]
  cases b.builder.cause? p with
  | some cause => rfl
  | none =>
    dsimp only
    rw [hpush, ← hlabel]
    cases b.root.push p <;> rfl

theorem InStep.refusal? (h : b.InStep ps) (p : Push) :
    (b.push p).refusal? = (b.builder.push p).refusal? := by
  rw [← h.builder_push p, Pushed.refusal?_inside]

/-! ### Calls -/

/-- The annotations after a call. -/
theorem carries_after (h : b.root.Carries b.options ps) (call : Request) :
    (b.after call).root.Carries (b.after call).options
      ((settings [call]).foldl (fun ps e => assign ps e.1 e.2) ps) := by
  cases call with
  | push p =>
    rw [after, options_push]
    exact carries_push h p
  | clear => exact h.clear
  | finalize => exact h
  | setParameter name value => exact h.setParameter name value

theorem InStep.builder_after (h : b.InStep ps) (call : Request) :
    (b.after call).builder = b.builder.after call := by
  cases call with
  | push p =>
    rw [Builder.after, ← h.builder_push p, Pushed.state_inside]
    rfl
  | clear =>
    rw [after, clear, builder, Node.column_clear, Node.label_clear]
    rfl
  | finalize => rfl
  | setParameter name value =>
    rw [after, setParameter, builder, Node.setParameter, Node.column_withParameters,
      Node.label_withParameters]
    rfl

theorem InStep.after (h : b.InStep ps) (call : Request) :
    (b.after call).InStep ((settings [call]).foldl (fun ps e => assign ps e.1 e.2) ps) where
  carries := carries_after h.carries call
  sound := by
    have hsound : (b.builder.after call).root.Sound := Builder.sound_after h.sound call
    rwa [← h.builder_after call] at hsound

/-! ### Runs -/

theorem inStep_new (o : Options) : (new o).InStep [] := ⟨Node.carries_new o, Column.sound_unknown 0⟩

theorem inStep_run (o : Options) (calls : List Request) :
    ((new o).run calls).InStep (tableOf (settings calls)) := by
  induction calls using List.reverseRecOn with
  | nil => exact inStep_new o
  | append_singleton calls call ih =>
    rw [run_concat, Builder.settings_append, tableOf, List.foldl_append]
    exact ih.after call

/-- A run of nodes is a run of columns. -/
theorem builder_run (o : Options) (calls : List Request) :
    ((new o).run calls).builder = (Builder.new o).run calls := by
  induction calls using List.reverseRecOn with
  | nil => rfl
  | append_singleton calls call ih =>
    rw [run_concat, Builder.run_concat, (inStep_run o calls).builder_after, ih]

theorem options_run (o : Options) (calls : List Request) : ((new o).run calls).options = o := by
  have h : ((new o).run calls).builder.options = o := by
    rw [builder_run, Builder.options_run]
    rfl
  exact h

/-- What the nodes keep in every state: all of them the settings of the builder, the root the
annotations that calls have set, and no other node any. -/
theorem carries_run (o : Options) (calls : List Request) :
    ((new o).run calls).root.Carries o (tableOf (settings calls)) := by
  have h := (inStep_run o calls).carries
  rwa [options_run] at h

/-! ### What can be seen of a builder -/

theorem InStep.answers (h : b.InStep ps) (calls : List Request) :
    b.answers calls = b.builder.answers calls := by
  induction calls generalizing b ps with
  | nil => rfl
  | cons call calls ih =>
    have hcalls := ih (h.after call)
    rw [h.builder_after] at hcalls
    cases call with
    | push p => rw [NodeBuilder.answers, Builder.answers, hcalls, h.refusal?]
    | clear | finalize | setParameter => exact hcalls

theorem InStep.layout (h : b.InStep ps) (partition : String) :
    b.layout partition = b.builder.layout partition := by
  rw [NodeBuilder.layout, Node.layout_eq b.root h.carries, Builder.layout, builder,
    h.carries.label]

theorem InStep.snapshot (h : b.InStep ps) : b.snapshot = b.builder.snapshot := by
  rw [NodeBuilder.snapshot, Builder.snapshot, h.layout]
  rfl

/-- **Annotations follow the root, and nothing else depends on them.**  Whatever node has become
the root, it keeps what calls have set, in the order in which the names were first set and with the
last value of each; no node below it keeps any, and all nodes keep the settings of the builder.
So the form shows the annotations at its outermost node; a root of strings or of named records sets
one annotation over it.  The nodes below are those of a run without any annotations, and carry none
but of their own.  And a run without the annotations that are never read answers every push alike,
writes the same buffers and has the same values. -/
theorem annotations_run (o : Options) (calls : List Request) :
    let b := (new o).run calls
    let bare := (new o).run (calls.filter (!·.setsBeside []))
    let kept := (new o).run (calls.filter (!·.setsBeside Builder.readNames))
    b.root.Carries o (lastEntries (settings calls)) ∧
    (∀ partition : String,
      (b.layout partition).form.parameters
        = b.root.column.annotate (lastEntries (settings calls)) ∧
      (b.layout partition).form.contents = (bare.layout partition).form.contents ∧
      (∀ g ∈ (b.layout partition).form.contents,
        g.Everywhere fun l => Builder.IsOwn l.parameters) ∧
      (b.layout partition).buffers = (kept.layout partition).buffers) ∧
    (new o).answers calls = (new o).answers (calls.filter (!·.setsBeside Builder.readNames)) ∧
    b.snapshot = kept.snapshot := by
  intro b bare kept
  have hcolumns : ∀ calls : List Request, ∀ partition : String,
      ((new o).run calls).layout partition = ((Builder.new o).run calls).layout partition := by
    intro calls partition
    rw [(inStep_run o calls).layout, builder_run]
  have hroot : b.root.column = ((Builder.new o).run calls).root :=
    congrArg Builder.root (builder_run o calls)
  have hanswers : ∀ calls : List Request, (new o).answers calls = (Builder.new o).answers calls :=
    (inStep_new o).answers
  obtain ⟨hforms, hpushes, hvalues⟩ := Builder.annotations_apart o calls
  refine ⟨?_, fun partition => ?_, ?_, ?_⟩
  · rw [← tableOf_eq_lastEntries]
    exact carries_run o calls
  · rw [hroot, hcolumns, hcolumns, hcolumns]
    exact hforms partition
  · rw [hanswers, hanswers, hpushes]
  · rw [(inStep_run o calls).snapshot, (inStep_run o _).snapshot, builder_run, builder_run]
    exact hvalues

end Columnar.NodeBuilder
