import Columnar.Proofs.Admitted
import Columnar.Proofs.Batch
import Columnar.Proofs.Column.Reread
import Columnar.Proofs.Snapshot

/-!
# Snapshots are normal forms

A snapshot is not quite what was put in: numbers are wider, records have fields that were
added, all in one order.  Put into a new builder it comes to the same form and to the same
buffers, and so to itself; it is taken because the column that it is read of holds it.

## Main definitions

* `Form.columnKind` — the kind of the column that a form is laid out from.

## Main results

* `Column.columnKind_layout` — the form of a column tells its kind.
* `Reads.depth_le` — what is read back is not deeper than what was put in.
* `Builder.extend_snapshot` — **a snapshot is a normal form.**
-/

namespace Columnar

/-! ### What is read back may be put in -/

namespace Value

theorem fieldsDepth_le_iff {fields : List (String × Value)} {n : Nat} :
    fieldsDepth fields ≤ n ↔ ∀ e ∈ fields, e.2.depth ≤ n := by
  induction fields with
  | nil => simp [fieldsDepth]
  | cons e rest ih =>
    obtain ⟨key, v⟩ := e
    simp [fieldsDepth, ih]

theorem itemsKeysDistinct_iff {vs : List Value} :
    ItemsKeysDistinct vs ↔ ∀ v ∈ vs, v.KeysDistinct := by
  induction vs with
  | nil => simp [ItemsKeysDistinct]
  | cons v vs ih => simp [ItemsKeysDistinct, ih]

theorem fieldsKeysDistinct_iff {fields : List (String × Value)} :
    FieldsKeysDistinct fields ↔ ∀ e ∈ fields, e.2.KeysDistinct := by
  induction fields with
  | nil => simp [FieldsKeysDistinct]
  | cons e rest ih =>
    obtain ⟨key, v⟩ := e
    simp [FieldsKeysDistinct, ih]

end Value

open List (Forall₂)

/-- What is read back is not deeper than what was put in, and has no double keys if that has
none. -/
theorem Reads.depth_le {v w : Value} (h : Reads v w) :
    w.depth ≤ v.depth ∧ (v.KeysDistinct → w.KeysDistinct) := by
  induction hn : sizeOf v using Nat.strongRecOn generalizing v w with
  | ind n ih =>
    subst hn
    -- values that stand in a container are smaller than it
    have hitems : ∀ {items out : List Value}, sizeOf items < sizeOf v → Forall₂ Reads items out →
        Value.itemsDepth out ≤ Value.itemsDepth items ∧
          (Value.ItemsKeysDistinct items → Value.ItemsKeysDistinct out) := by
      intro items out hlt hread
      rw [Value.itemsDepth_le_iff, Value.itemsKeysDistinct_iff, Value.itemsKeysDistinct_iff]
      have hitem : ∀ w ∈ out, ∃ u ∈ items, w.depth ≤ u.depth ∧
          (u.KeysDistinct → w.KeysDistinct) := by
        intro w hw
        obtain ⟨u, hu, huw⟩ := exists_of_forall₂ hread.flip hw
        have hsize := List.sizeOf_lt_of_mem hu
        exact ⟨u, hu, ih _ (by omega) huw rfl⟩
      refine ⟨fun w hw => ?_, fun hkeys w hw => ?_⟩
      · obtain ⟨u, hu, hdepth, -⟩ := hitem w hw
        exact Nat.le_trans hdepth (Value.itemsDepth_le_iff.mp (Nat.le_refl _) u hu)
      · obtain ⟨u, hu, -, hdistinct⟩ := hitem w hw
        exact hdistinct (hkeys u hu)
    cases h with
    | same | int_real | int_complex | real_complex => exact ⟨Nat.le_refl _, id⟩
    | list hread | tuple hread =>
      obtain ⟨hdepth, hkeys⟩ := hitems (by simp) hread
      exact ⟨Nat.succ_le_succ hdepth, hkeys⟩
    | @record name fields out hfields hout hkeys hread hextra =>
      have hfield : ∀ e ∈ out, e.2 = .null ∨ ∃ f ∈ fields, e.2.depth ≤ f.2.depth ∧
          (f.2.KeysDistinct → e.2.KeysDistinct) := by
        rintro ⟨key, w⟩ hw
        by_cases hkey : key ∈ fields.map Prod.fst
        · obtain ⟨⟨key, u⟩, hu, rfl⟩ := List.mem_map.mp hkey
          have hsize := List.sizeOf_lt_of_mem hu
          rw [Prod.mk.sizeOf_spec] at hsize
          have hlt : sizeOf u < sizeOf (Value.record name fields) := by
            rw [Value.record.sizeOf_spec]
            omega
          exact .inr ⟨_, hu, ih _ hlt (hread key u w hu hw) rfl⟩
        · exact .inl (hextra key w hw hkey)
      refine ⟨Nat.succ_le_succ (Value.fieldsDepth_le_iff.mpr fun e he => ?_), fun hdistinct =>
        ⟨hout, Value.fieldsKeysDistinct_iff.mpr fun e he => ?_⟩⟩
      · rcases hfield e he with hnull | ⟨f, hf, hdepth, -⟩
        · rw [hnull]
          exact Nat.zero_le _
        · exact Nat.le_trans hdepth (Value.fieldsDepth_le_iff.mp (Nat.le_refl _) f hf)
      · rcases hfield e he with hnull | ⟨f, hf, -, hkeys⟩
        · rw [hnull]
          trivial
        · exact hkeys (Value.fieldsKeysDistinct_iff.mp hdistinct.2 f hf)

/-! ### Kinds -/

/-- The kind of the column that a form is laid out from. -/
def Form.columnKind : Form → ColumnKind
  | .empty _ | .option _ (.empty _) _ => .unknown
  | .option _ _ _ => .option
  | .flat .bool _ => .bool
  | .flat .uint8 _ | .flat .int64 _ => .int64
  | .flat .float64 _ => .float64
  | .flat .complex128 _ => .complex128
  | .flat (.time .datetime _) _ => .datetime
  | .flat (.time .timedelta _) _ => .timedelta
  | .list width content l =>
    if (Form.list width content l).stringKind?.isSome then .string else .list
  | .record _ none _ => .tuple
  | .record _ (some _) _ => .record
  | .union _ _ _ _ => .union

/-- **The form of a column tells its kind.** -/
theorem Column.columnKind_layout {c : Column} (hs : c.Sound) {ps : Parameters} (hps : Plain ps)
    (partition : String) (next : Nat) :
    (c.layout partition ps next).form.columnKind = c.kind := by
  cases c with
  | unknown n => cases n <;> rfl
  | option index content =>
    -- the content has a kind, and so its form is not the empty one
    have hcontent := hs.node.not_unknown
    cases content with
    | unknown => exact absurd rfl hcontent
    | _ => rfl
  | time kind => cases kind <;> rfl
  | string encoding =>
    rw [layout, Form.columnKind, Form.stringKind?_list, lookup_assign_self]
    cases encoding <;> rfl
  | list =>
    rw [layout, Form.columnKind, Form.stringKind?_list, hps.array]
    rfl
  | _ => rfl

namespace Builder

variable {o : Options} {vs : List Value} {b : Builder}

/-- No column has more elements than there were calls, and pushes behind them. -/
theorem bounded_run_pushAll (calls : List Request) {ps : List Push}
    (h : ((new o).run calls).pushAll ps = .ok b) : b.root.Bounded (calls.length + ps.length) := by
  obtain ⟨taken, htaken, heq⟩ := exists_run_pushAll ((new o).run calls) ps
  rw [h] at heq
  change b = _ at heq
  rw [heq, run, run, ← List.foldl_append]
  refine (bounded_run o _).mono ?_
  rw [List.length_append, List.length_map]
  exact Nat.add_le_add_left htaken.length_le _

/-- No column has more elements than there were pushes. -/
theorem bounded_pushAll {ps : List Push} (h : (new o).pushAll ps = .ok b) :
    b.root.Bounded ps.length := by
  have hbounded := bounded_run_pushAll [] h
  rwa [List.length_nil, Nat.zero_add] at hbounded

/-- **A snapshot is a normal form.**  Whatever values a new builder takes, its snapshot is read
without an error, and another new builder takes it; that builder has the same form and the
same buffers, hence the same snapshot, and its root is of the same kind.  There has to be memory
for as many values as there are pushes. -/
theorem extend_snapshot (h : (new o).extend vs = .ok b)
    (hlen : (Value.itemPushes vs).length ≤ maxValues) :
    ∃ vals, b.snapshot = .ok vals ∧ ∃ b', (new o).extend vals = .ok b' ∧
      (∀ partition, b'.layout partition = b.layout partition) ∧
      (∀ partition table, b'.toBuffers partition table = b.toBuffers partition table) ∧
      b'.snapshot = .ok vals ∧ b'.kind = b.kind := by
  have hholds : b.Holds True ⟨vs, []⟩ := Holds.extend h
  obtain ⟨hoptions, hparameters⟩ := pushAll_eq_ok h
  have hplain : Plain b.parameters := hparameters ▸ plain_nil
  obtain ⟨vals, hvals, -, hreads⟩ := hholds.snapshot hplain (bounded_pushAll h) hlen
  have hfits := hholds.fits
  rw [hoptions] at hfits
  -- the column holds what is read back of it
  have hread : (b.root.layout defaultPartition b.parameters 0).form.toValues b.length
      (b.layout defaultPartition).buffers defaultPartition = .ok vals := hvals
  have hagain : Column.Fits o True b.root vals [] :=
    hfits.reread hholds.sound hplain hreads (Form.describes_of_toValues hread)
  obtain ⟨-, -, hvalues⟩ := (opens_new o).extend rfl h
  obtain ⟨b', hb'⟩ := exists_extend hagain hholds.sound fun w hw => by
    obtain ⟨v, hv, hread⟩ := exists_of_forall₂ hreads.flip hw
    obtain ⟨hdepth, hkeys⟩ := hvalues v hv
    exact ⟨Nat.le_trans hread.depth_le.1 hdepth, hread.depth_le.2 hkeys⟩
  have hholds' : b'.Holds True ⟨vals, []⟩ := Holds.extend hb'
  obtain ⟨hoptions', hparameters'⟩ := pushAll_eq_ok hb'
  have hfits' := hholds'.fits
  rw [hoptions'] at hfits'
  have hlayout : ∀ partition, b'.layout partition = b.layout partition := by
    intro partition
    rw [layout, layout, hparameters', hparameters, Batch.layout_eq hholds'.sound hfits',
      Batch.layout_eq hholds.sound hagain]
    rfl
  refine ⟨vals, hvals, b', hb', hlayout, fun partition table => ?_, ?_, ?_⟩
  · rw [toBuffers, toBuffers, hlayout]
  · have hlength : b'.length = b.length := by
      rw [length, length, hfits'.length, hfits.length, hreads.length_eq]
    rw [snapshot, hlayout, hlength]
    exact hvals
  · have hplain' : Plain b'.parameters := hparameters' ▸ plain_nil
    rw [kind, kind, ← Column.columnKind_layout hholds'.sound hplain' defaultPartition 0,
      ← Column.columnKind_layout hholds.sound hplain defaultPartition 0]
    exact congrArg (fun l => l.form.columnKind) (hlayout defaultPartition)

/-- Values that are read back wider, in another order, and with fields they had not. -/
theorem extend_snapshot_lateValues : ∃ b vals b', (new {}).extend lateValues = .ok b ∧
    b.snapshot = .ok vals ∧ (new {}).extend vals = .ok b' ∧
    (∀ partition, b'.layout partition = b.layout partition) ∧ b'.snapshot = .ok vals ∧
    b'.kind = b.kind := by
  obtain ⟨vals, hvals, b', hb', hlayout, -, hsnapshot, hkind⟩ :=
    extend_snapshot (show (new {}).extend lateValues = .ok _ from rfl) (by decide)
  exact ⟨_, vals, b', rfl, hvals, hb', hlayout, hsnapshot, hkind⟩

end Builder

end Columnar
