import Columnar.Proofs.Form.Restores
import Columnar.Proofs.Holding

/-!
# Snapshots

A snapshot reads back what a builder has laid out.  Whatever the calls were, it gives one
value for every element that was completed since the builder was last cleared, and nothing
of what is still under way.  The form of the builder says how a value may have changed: the
records of a column show its keys, in its order.

## Main results

* `Builder.plain_run` — annotations stay plain unless calls set others.
* `Builder.restores_of_snapshot` — a snapshot shows a value as the form of the builder restores it.
* `Builder.snapshot_run` — **a snapshot gives the complete values, in order.**
-/

namespace Columnar.Builder

/-- A call that sets no annotation by which values are read. -/
def Request.IsPlain : Request → Prop
  | .setParameter name _ => name ≠ arrayParameter ∧ name ≠ recordParameter
  | _ => True

theorem plain_after {b : Builder} (h : Plain b.parameters) {call : Request}
    (hcall : call.IsPlain) : Plain (b.after call).parameters := by
  cases call with
  | push p =>
    rcases after_push b p with ⟨b', hpush, hafter⟩ | ⟨-, hafter⟩
    · rw [hafter, (push_eq_ok hpush).2.2]
      exact h
    · rwa [hafter]
  | clear | finalize => exact h
  | setParameter name value =>
    refine ⟨?_, ?_⟩
    · rw [after, setParameter, lookup_assign_of_ne _ _ hcall.1]
      exact h.array
    · rw [after, setParameter, lookup_assign_of_ne _ _ hcall.2]
      exact h.record

/-- Annotations stay plain unless calls set others. -/
theorem plain_run {b : Builder} (h : Plain b.parameters) {calls : List Request}
    (hcalls : ∀ call ∈ calls, call.IsPlain) : Plain (b.run calls).parameters := by
  induction calls generalizing b with
  | nil => exact h
  | cons call calls ih =>
    exact ih (plain_after h (hcalls call List.mem_cons_self))
      fun q hq => hcalls q (List.mem_cons_of_mem _ hq)

/-- A builder that holds values gives a snapshot of them. -/
theorem Holds.snapshot {fresh : Prop} {b : Builder} {s : Assembly} {n : Nat}
    (h : b.Holds fresh s) (hps : Plain b.parameters) (hb : b.root.Bounded n)
    (hn : n ≤ maxValues) :
    ∃ vals, b.snapshot = .ok vals ∧ vals.length = b.length ∧ List.Forall₂ Reads s.done vals := by
  have hlength : b.length = s.done.length := h.fits.length
  obtain ⟨out, hout, hreads⟩ := h.fits.yields hn h.sound hb hps
    (Column.stored_layout defaultPartition b.root b.parameters 0) (List.prefix_refl _)
  rw [← hlength] at hout
  refine ⟨out.toList, ?_, hreads.length_eq.symm.trans hlength.symm, hreads⟩
  rw [Builder.snapshot, layout, Form.toValues, hout]
  rfl

/-- What a snapshot shows of a value is what the form of the builder restores. -/
theorem restores_of_snapshot {b : Builder} {vs vals : List Value} (hb : b.root.Sound)
    (hvals : b.snapshot = .ok vals) (hreads : List.Forall₂ Reads vs vals) :
    List.Forall₂ (b.layout defaultPartition).form.Restores vs vals := by
  have hkeyed : (b.layout defaultPartition).form.Keyed := Column.keyed_layout hb b.parameters 0
  have hdescribes := Form.describes_of_toValues hvals
  have hback : List.Forall₂ (fun w v => (b.layout defaultPartition).form.Restores v w) vals vs :=
    ((List.forall₂_and_left vals vs).mpr ⟨hdescribes, hreads.flip⟩).imp
      fun _ _ ⟨hw, hread⟩ => Form.restores_of_reads hkeyed hread hw
  exact hback.flip

/-- **A snapshot gives the complete values, in order.**  After any calls, taken or refused,
with containers still open or not, it is read without an error, has as many values as the
builder counts, and they are the values that were completed since the builder was last
cleared, each of them as the form of the builder restores it.  So numbers are as wide as their
column, and every record has the keys of its column, in one order, with nothing under those it
was not given.  Texts have to be UTF-8, nobody may annotate the root as strings or name it as
records, and there has to be memory for as many values as there are calls. -/
theorem snapshot_run (o : Options) (calls : List Request)
    (htext : ∀ data, .push (.string .utf8 data) ∈ calls → ∃ s, data = Utf8.encodeString s)
    (hparameters : ∀ name value, .setParameter name value ∈ calls →
      name ≠ arrayParameter ∧ name ≠ recordParameter)
    (hlen : calls.length ≤ maxValues) :
    let b := (new o).run calls
    ∃ vals, b.snapshot = .ok vals ∧ vals.length = b.length ∧
      List.Forall₂ (b.layout defaultPartition).form.Restores
        ((new o).assembled .empty calls).done vals := by
  intro b
  have hisText : ∀ call ∈ calls, call.IsText := by
    intro call hcall
    cases call with
    | push p =>
      cases p with
      | string encoding data =>
        cases encoding with
        | utf8 =>
          obtain ⟨s, rfl⟩ := htext data hcall
          exact congrArg Utf8.encodeString (Utf8.lossy_encodeString s)
        | bytes => trivial
      | _ => trivial
    | _ => trivial
  have hisPlain : ∀ call ∈ calls, call.IsPlain := by
    intro call hcall
    cases call with
    | setParameter name value => exact hparameters name value hcall
    | _ => trivial
  have hholds := holds_run (holds_new False o) hisText
  obtain ⟨vals, hvals, hlength, hreads⟩ :=
    hholds.snapshot (plain_run plain_nil hisPlain) (bounded_run o calls) hlen
  exact ⟨vals, hvals, hlength, restores_of_snapshot hholds.sound hvals hreads⟩

/-- Calls of every sort: an element that is cleared away, numbers of two widths, a push that is
refused, a record with a field that is given no value, a list that stays open, and a push
into a sealed builder. -/
def mixedCalls : List Request :=
  [.push (.bool true), .clear, .setParameter "note" .null, .push (.int 1), .push .endList,
    .push (.real .one), .push (.beginRecord none), .push (.field "x" false), .push .endRecord,
    .push (.text "a"), .push .beginList, .push (.int 2), .finalize, .push .null]

theorem snapshot_run_mixedCalls :
    ((new {}).assembled .empty mixedCalls).done
        = [.int 1, .real .one, .record none [("x", .null)], .string "a"] ∧
      ∃ vals, ((new {}).run mixedCalls).snapshot = .ok vals ∧
        vals.length = ((new {}).run mixedCalls).length ∧
        List.Forall₂ (((new {}).run mixedCalls).layout defaultPartition).form.Restores
          ((new {}).assembled .empty mixedCalls).done vals := by
  refine ⟨rfl, snapshot_run {} mixedCalls ?_ ?_ (by decide)⟩
  · intro data h
    refine ⟨"a", ?_⟩
    simpa [mixedCalls, Push.text] using h
  · intro name value h
    have hname : name = "note" ∧ value = .null := by simpa [mixedCalls] using h
    rw [hname.1]
    decide

end Columnar.Builder
