import Columnar.Proofs.Column.Names
import Columnar.Proofs.Column.Replays
import Columnar.Proofs.Protocol

/-!
# Clearing and pushing once more

Clearing removes the elements and keeps the kinds.  A cleared builder has a tree that is wider
than that of a new one: fields, slots, contents of unions and options that pushes once brought
about are there from the beginning.  The same pushes are taken all the same, and what they
leave is what they left before, since the end of a run tells which wider columns stand for
each column on the way.

## Main definitions

* `Buffer.IsBare` — a buffer without elements, or with the one offset of no list.
* `Builder.IsCleared` — nothing is held and nothing is open, at any node.

## Main results

* `Column.isBare_layout_clear` — what is written of a cleared column.
* `Builder.isCleared_clear` — **a cleared builder is empty, idle and takes elements.**
* `Builder.pushAll_clear` — **the pushes of a run lead a cleared builder to the same tree.**
-/

namespace Columnar

/-! ### The buffers of a cleared column -/

/-- A buffer without elements, or with the one offset that stands before the first list. -/
def Buffer.IsBare (b : Buffer) : Prop := b.size = 0 ∨ b = .int64 #[0]

namespace Column

variable {partition : String}

theorem isBare_layouts {cs : List Column}
    (h : ∀ c ∈ cs, ∀ next, ∀ e ∈ (c.layout partition [] next).buffers, e.2.IsBare)
    (next : Nat) : ∀ e ∈ (layouts partition next cs).buffers, e.2.IsBare := by
  induction cs generalizing next with
  | nil => nofun
  | cons c cs ih =>
    refine List.forall_mem_append.mpr ⟨h c List.mem_cons_self next, ?_⟩
    exact ih (fun d hd => h d (List.mem_cons_of_mem _ hd)) _

/-- What is written of a cleared column is empty but for first offsets. -/
theorem isBare_layout_clear (c : Column) (ps : Parameters) (next : Nat) :
    ∀ e ∈ (c.clear.layout partition ps next).buffers, e.2.IsBare := by
  have hoffsets : (sizesBuffer #[0]).IsBare := .inr (by simp [sizesBuffer])
  induction c using Column.induct generalizing ps next with
  | node c ih =>
    cases c with
    | unknown n => nofun
    | bool | int64 | float64 | complex128 | time =>
      exact List.forall_mem_singleton.mpr (.inl (by simp [Buffer.size, wordsBuffer]))
    | string encoding offsets data =>
      exact List.forall_mem_cons.mpr ⟨hoffsets, List.forall_mem_singleton.mpr (.inl rfl)⟩
    | option index content =>
      refine List.forall_mem_cons.mpr ⟨.inl ?_, ih content (List.mem_singleton_self _) [] _⟩
      simp [Buffer.size]
    | list offsets content isOpen =>
      exact List.forall_mem_cons.mpr ⟨hoffsets, ih content (List.mem_singleton_self _) [] _⟩
    | tuple slots n filling =>
      rw [clear, clearAll_eq]
      refine isBare_layouts (fun d hd => ?_) _
      obtain ⟨c, hc, rfl⟩ := List.mem_map.mp hd
      exact ih c hc []
    | record name fields n filling settled declared =>
      rw [clear, layout, fieldLayouts_eq, columnsOf_clearFields]
      refine isBare_layouts (fun d hd => ?_) _
      obtain ⟨c, hc, rfl⟩ := List.mem_map.mp hd
      exact ih c hc []
    | union tags index children current =>
      rw [clear, clearAll_eq]
      refine List.forall_mem_cons.mpr ⟨.inl ?_, List.forall_mem_cons.mpr ⟨.inl ?_, ?_⟩⟩
      · simp [Buffer.size]
      · simp [Buffer.size, sizesBuffer]
      · refine isBare_layouts (fun d hd => ?_) _
        obtain ⟨c, hc, rfl⟩ := List.mem_map.mp hd
        exact ih c hc []

end Column

namespace Builder

/-! ### Cleared builders -/

/-- A builder holds nothing, and nothing is open at any of its nodes. -/
structure IsCleared (b : Builder) : Prop where
  /-- No container is open. -/
  inactive : b.isActive = false
  /-- There are no elements. -/
  length_eq : b.length = 0
  /-- The depth is that of the outside. -/
  depth_eq : b.depth = 0
  /-- Every element is taken, but for containers where none may be opened and for a new
  class where a union is full. -/
  takes : ∀ p : Push, p.Begins → (p.opens?.isSome → 0 < b.options.maxDepth) →
    ((∃ b', b.push p = .ok b') ↔ ¬ b.root.IsFull p)
  /-- Every buffer is empty or has the one leading offset. -/
  bare : ∀ partition, ∀ e ∈ (b.layout partition).buffers, e.2.IsBare
  /-- Clearing changes nothing. -/
  clear_eq : b.clear = b

variable {b : Builder}

/-- **A cleared builder is empty, idle and takes elements**, whatever was open before. -/
theorem isCleared_clear (hs : b.root.Sound) : b.clear.IsCleared := by
  have hopens : b.clear.Opens [] :=
    ⟨hs.clear, Column.levels_eq_nil (Column.empty_clear b.root).2, rfl⟩
  refine ⟨(Column.empty_clear b.root).2, (Column.empty_clear b.root).1, rfl, ?_, ?_, ?_⟩
  · intro p hp hdepth
    rw [hopens.exists_ok_iff rfl (Push.unitCode?_of_begins hp)]
    refine ⟨And.right, fun hfull => ⟨⟨?_, hdepth, Column.knows_of_begins hp⟩, hfull⟩⟩
    exact (Level.allows_nil_iff (Push.unitCode?_of_begins hp)).mpr hp
  · intro partition
    exact Column.isBare_layout_clear b.root b.parameters 0
  · exact congrArg (fun root => { b.clear with root }) (Column.clear_clear b.root)

/-- **The pushes of a run lead a cleared builder to the same tree.**  After pushes that a new
builder takes, wherever they end, clearing leaves it empty and idle, and the same pushes are
all taken once more; the builder is then what it was before, at every node. -/
theorem pushAll_clear {o : Options} {ps : List Push} (h : (new o).pushAll ps = .ok b) :
    b.clear.IsCleared ∧ b.clear.pushAll ps = .ok b := by
  obtain ⟨root, htakes, rfl⟩ := (pushAll_eq_ok_iff (Column.sound_unknown 0) rfl).mp h
  have hs : root.Sound := (Column.sound_unknown 0).takesAll htakes
  refine ⟨isCleared_clear hs, (pushAll_eq_ok_iff hs.clear rfl).mpr ⟨root, ?_, rfl⟩⟩
  exact htakes.of_clear

/-- A list of numbers that turn real, and then text, with an element missing between them, and
a record in the middle of its second field. -/
theorem pushAll_clear_midRecord :
    let ps : List Push := [.beginList, .int 1, .real (Binary64.ofInt 2), .endList, .null,
      .beginRecord none, .field "x" false, .text "a", .endRecord,
      .beginRecord none, .field "y" false, .beginList, .int 3]
    ∃ b, (new {}).pushAll ps = .ok b ∧ b.isActive = true ∧ b.clear ≠ new {} ∧
      b.clear.IsCleared ∧ b.clear.pushAll ps = .ok b := by
  intro ps
  have hrun : ∃ b, (new {}).pushAll ps = .ok b ∧ b.isActive = true ∧ b.clear ≠ new {} := by
    refine ⟨_, rfl, rfl, fun h => ?_⟩
    have hkind := congrArg (fun b : Builder => b.kind) h
    cases hkind
  obtain ⟨b, hb, hactive, hne⟩ := hrun
  exact ⟨b, hb, hactive, hne, pushAll_clear hb⟩

end Builder

end Columnar
