import Columnar.Proofs.Form.Relabelled
import Columnar.Proofs.Run

/-!
# Annotations of the root

A builder of columns keeps the annotations that are set beside the columns, and puts them at the
outermost node when it is written.  That a builder whose nodes keep and hand over annotations comes
to the same is a result of its own; here is what follows for what is written:  the form shows the
annotations at the outermost node, and the nodes below are as if none had been set.

Of all annotations only two are read, those that tell strings from lists and give records a name.
Calls that set any other can be left out of a run, and nothing but the annotations of the root
tells the difference.

## Main definitions

* `Builder.settings` — the annotations that calls set, in order.
* `Builder.Request.setsBeside` — a call that sets an annotation under none of some names.
* `Builder.answers` — what the pushes of a run are answered.
* `Builder.Agrees` — two builders that differ in no annotation of some names, and in nothing else.
* `Builder.readNames` — the names of the annotations that are read.

## Main results

* `Builder.parameters_run` — the annotations are those that calls have set.
* `Builder.annotations_apart` — annotations stand at the root, and nothing else depends on them.
-/

namespace Columnar.Builder

/-- The annotations that calls set, in order, the documents brought into sorted order. -/
def settings (calls : List Request) : List (String × Document) :=
  calls.filterMap fun
    | .setParameter name value => some (name, value.sorted)
    | _ => none

/-- Whether a call sets an annotation under none of some names. -/
def Request.setsBeside (names : List String) : Request → Bool
  | .setParameter name _ => decide (name ∉ names)
  | _ => false

/-- The names of the annotations that are read. -/
def readNames : List String := [arrayParameter, recordParameter]

theorem settings_append (calls calls' : List Request) :
    settings (calls ++ calls') = settings calls ++ settings calls' := List.filterMap_append

/-! ### The annotations of a builder -/

theorem parameters_after (b : Builder) (call : Request) :
    (b.after call).parameters
      = (settings [call]).foldl (fun ps e => assign ps e.1 e.2) b.parameters := by
  cases call with
  | push p =>
    rcases after_push b p with ⟨b', hpush, hafter⟩ | ⟨-, hafter⟩
    · rw [hafter]
      exact (push_eq_ok hpush).2.2
    · rw [hafter]
      rfl
  | clear | finalize | setParameter => rfl

/-- The annotations are those that calls have set, as a table. -/
theorem parameters_run (o : Options) (calls : List Request) :
    ((new o).run calls).parameters = tableOf (settings calls) := by
  induction calls using List.reverseRecOn with
  | nil => rfl
  | append_singleton calls call ih =>
    rw [run_concat, parameters_after, ih, settings_append, tableOf, tableOf, List.foldl_append]

/-! ### Runs without some annotations -/

/-- What the pushes of a run are answered, in order: nothing, or why they are refused. -/
def answers (b : Builder) : List Request → List (Option PushError)
  | [] => []
  | .push p :: calls => (b.push p).refusal? :: (b.after (.push p)).answers calls
  | call :: calls => (b.after call).answers calls

/-- Two builders differ in no annotation of some names, and beside annotations in nothing. -/
structure Agrees (names : List String) (b b' : Builder) : Prop where
  options : b.options = b'.options
  root : b.root = b'.root
  isFinalized : b.isFinalized = b'.isFinalized
  depth : b.depth = b'.depth
  lookup : ∀ name ∈ names, lookup b.parameters name = lookup b'.parameters name

namespace Agrees

variable {names : List String} {b b' : Builder}

theorem refl (b : Builder) : Agrees names b b := ⟨rfl, rfl, rfl, rfl, fun _ _ => rfl⟩

/-- A push does not look at annotations. -/
theorem push (h : Agrees names b b') (p : Push) :
    Agrees names (b.after (.push p)) (b'.after (.push p)) ∧
      (b.push p).refusal? = (b'.push p).refusal? := by
  obtain ⟨options, root, parameters, isFinalized, depth⟩ := b
  obtain ⟨options', root', parameters', isFinalized', depth'⟩ := b'
  obtain ⟨rfl, rfl, rfl, rfl, hlookup⟩ := h
  have hcause : cause? ⟨options, root, parameters', isFinalized, depth⟩ p
      = cause? ⟨options, root, parameters, isFinalized, depth⟩ p := rfl
  simp only [after, Builder.push, hcause]
  cases cause? ⟨options, root, parameters, isFinalized, depth⟩ p with
  | some cause => exact ⟨⟨rfl, rfl, rfl, rfl, hlookup⟩, rfl⟩
  | none => cases root.push options p <;> exact ⟨⟨rfl, rfl, rfl, rfl, hlookup⟩, rfl⟩

/-- The same call leaves two builders as different as they are. -/
theorem after (h : Agrees names b b') (call : Request) :
    Agrees names (b.after call) (b'.after call) := by
  cases call with
  | push p => exact (h.push p).1
  | clear => exact ⟨h.options, congrArg Column.clear h.root, rfl, rfl, h.lookup⟩
  | finalize => exact ⟨h.options, h.root, rfl, h.depth, h.lookup⟩
  | setParameter name value =>
    refine ⟨h.options, h.root, h.isFinalized, h.depth, fun other hother => ?_⟩
    simp only [Builder.after, setParameter, lookup_assign, h.lookup other hother]

/-- A call that sets an annotation under another name may be left out. -/
theorem after_left (h : Agrees names b b') {call : Request}
    (hcall : call.setsBeside names = true) : Agrees names (b.after call) b' := by
  cases call with
  | setParameter name value =>
    have hname : name ∉ names := of_decide_eq_true hcall
    refine ⟨h.options, h.root, h.isFinalized, h.depth, fun other hother => ?_⟩
    have hne : name ≠ other := by
      rintro rfl
      exact hname hother
    rw [Builder.after, setParameter, lookup_assign_of_ne _ _ hne, h.lookup other hother]
  | push | clear | finalize => cases hcall

/-- Calls that set annotations under other names may be left out of a run. -/
theorem run (h : Agrees names b b') (calls : List Request) :
    Agrees names (b.run calls) (b'.run (calls.filter (!·.setsBeside names))) ∧
      b.answers calls = b'.answers (calls.filter (!·.setsBeside names)) := by
  induction calls generalizing b b' with
  | nil => exact ⟨h, rfl⟩
  | cons call calls ih =>
    cases hcall : call.setsBeside names with
    | true =>
      obtain ⟨hrun, hanswers⟩ := ih (h.after_left hcall)
      rw [List.filter_cons_of_neg (by simp [hcall]), run_cons]
      refine ⟨hrun, ?_⟩
      cases call with
      | setParameter name value => exact hanswers
      | push | clear | finalize => cases hcall
    | false =>
      obtain ⟨hrun, hanswers⟩ := ih (h.after call)
      rw [List.filter_cons_of_pos (by simp [hcall]), run_cons, run_cons]
      refine ⟨hrun, ?_⟩
      cases call with
      | push p => rw [answers, answers, (h.push p).2, hanswers]
      | clear | finalize | setParameter => exact hanswers

/-- What is written is the same but for the label of the root. -/
theorem layout (h : Agrees names b b') (partition : String) :
    b.layout partition = ⟨(b'.layout partition).form.relabel (b.layout partition).form.label,
      (b'.layout partition).buffers, (b'.layout partition).next⟩ := by
  rw [Builder.layout, Builder.layout, Column.label_layout, Column.layout_eq_relabel _ b.parameters,
    Column.layout_eq_relabel _ b'.parameters, h.root]
  cases (b'.root.layout partition [] 0).form <;> rfl

/-- The label of the root is read alike if the annotations that are read are the same. -/
theorem readsLike (h : Agrees readNames b b') (partition : String) :
    (b.layout partition).form.label.ReadsLike (b'.layout partition).form.label := by
  have hannotate : ∀ name ∈ readNames, Columnar.lookup (b.root.annotate b.parameters) name
      = Columnar.lookup (b'.root.annotate b'.parameters) name := by
    intro name hname
    rw [h.root, Column.annotate, Column.annotate]
    cases b'.root.ownAnnotation? with
    | none => exact h.lookup name hname
    | some e => simp only [lookup_assign, h.lookup name hname]
  simp only [Builder.layout, Column.label_layout]
  exact ⟨rfl, hannotate _ (List.mem_cons_self), hannotate _ (by simp [readNames])⟩

end Agrees

/-- The annotations of a node below the root: none, or a single one that tells strings from other
lists or gives records a name. -/
def IsOwn (ps : Parameters) : Prop :=
  ps = [] ∨ ∃ name text, name ∈ readNames ∧ ps = [(name, .string text)]

/-- Annotations stand at the root, and nothing else depends on them.  The form has at its
outermost node what calls have set, in the order in which the names were first set and with the
last value of each; a column of strings or of named records sets one annotation over it.  The
nodes below are those of a run without any annotations, and carry none but of their own.  And a
run without the annotations that are never read answers every push alike, writes the same buffers
and has the same values. -/
theorem annotations_apart (o : Options) (calls : List Request) :
    let b := (new o).run calls
    let bare := (new o).run (calls.filter (!·.setsBeside []))
    let kept := (new o).run (calls.filter (!·.setsBeside readNames))
    (∀ partition : String,
      (b.layout partition).form.parameters = b.root.annotate (lastEntries (settings calls)) ∧
      (b.layout partition).form.contents = (bare.layout partition).form.contents ∧
      (∀ g ∈ (b.layout partition).form.contents, g.Everywhere fun l => IsOwn l.parameters) ∧
      (b.layout partition).buffers = (kept.layout partition).buffers) ∧
    (new o).answers calls = (new o).answers (calls.filter (!·.setsBeside readNames)) ∧
    b.snapshot = kept.snapshot := by
  intro b bare kept
  have hbare : Agrees [] b bare := ((Agrees.refl (new o)).run calls).1
  have hsame : Agrees readNames (new o) (new o) := .refl _
  obtain ⟨hkept, hanswers⟩ : Agrees readNames b kept ∧ _ := hsame.run calls
  refine ⟨fun partition => ⟨?_, ?_, fun g hg => ?_, ?_⟩, hanswers, ?_⟩
  · rw [Form.parameters, layout, Column.label_layout, parameters_run, tableOf_eq_lastEntries]
  · rw [hbare.layout, Form.contents_relabel]
  · have hbelow : (b.root.layout partition [] 0).form.Everywhere fun l => IsOwn l.parameters :=
      Column.everywhere_layout (.inl rfl)
        (fun name text hname => .inr ⟨name, text, by simpa [readNames] using hname, rfl⟩) b.root 0
    rw [layout, Column.layout_eq_relabel, Form.contents_relabel] at hg
    exact hbelow.contents g hg
  · rw [hkept.layout]
  · have hlength : b.length = kept.length := congrArg Column.length hkept.root
    rw [snapshot, snapshot, hlength, hkept.layout]
    exact Form.toValues_relabel (hkept.readsLike defaultPartition) _

end Columnar.Builder
