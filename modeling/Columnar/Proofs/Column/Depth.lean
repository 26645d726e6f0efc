import Columnar.Proofs.Column.Bounded
import Columnar.Proofs.Form.Documents
import Columnar.Proofs.Protocol

/-!
# How deep columns and their forms nest

A push opens at most one container, inside of those that are open.  So containers never nest
deeper in a column than as many as may be open at once, whatever was pushed and whether or not
the containers have been closed since.

The form of a column nests deeper than the column.  A list has a level for its object, a tuple
or a record another one for the array of its contents, as has a union, and a column of strings
has annotations below its own.  Between one container and the next there may be an option and a
union, which makes five levels for a container.

## Main definitions

* `Column.isContainer`, `Column.NestsWithin` — how deep containers nest in a column.

## Main results

* `Column.NestsWithin.takes` — a push nests no deeper than containers are open.
* `Column.nesting_layout` — **five levels of text for a container, and six beside.**
* `Builder.nestsWithin_run` — **containers nest within the limit on open ones.**
-/

namespace Columnar

namespace Column

/-- Whether the elements of a column are containers. -/
def isContainer : Column → Bool
  | .list _ _ _ => true
  | .tuple _ _ _ => true
  | .record _ _ _ _ _ _ => true
  | _ => false

/-- Containers nest in a column no deeper than `n`. -/
inductive NestsWithin : Nat → Column → Prop
  /-- What is left for the columns below a container is one level less. -/
  | intro {n m : Nat} {c : Column} (own : c.isContainer.toNat + m ≤ n)
      (children : ∀ d ∈ c.children, NestsWithin m d) : NestsWithin n c

namespace NestsWithin

variable {n m : Nat} {c d : Column}

theorem mono (h : c.NestsWithin n) (hle : n ≤ m) : c.NestsWithin m := by
  obtain ⟨hown, hchildren⟩ := h
  exact .intro (Nat.le_trans hown hle) hchildren

theorem own_le (h : c.NestsWithin n) : c.isContainer.toNat ≤ n := by
  obtain ⟨hown, -⟩ := h
  omega

theorem child (h : c.NestsWithin n) (hd : d ∈ c.children) :
    d.NestsWithin (n - c.isContainer.toNat) := by
  obtain ⟨hown, hchildren⟩ := h
  exact (hchildren d hd).mono (by omega)

/-- A column nests as deep as its children do, below it. -/
theorem of_children (hown : c.isContainer.toNat ≤ n)
    (h : ∀ d ∈ c.children, d.NestsWithin (n - c.isContainer.toNat)) : c.NestsWithin n :=
  .intro (m := n - c.isContainer.toNat) (by omega) h

/-- A column of another kind nests as deep as one of the same sort with the same children. -/
theorem congr (h : c.NestsWithin n) (hsort : d.isContainer = c.isContainer)
    (hchildren : d.children = c.children) : d.NestsWithin n := by
  obtain ⟨hown, hbelow⟩ := h
  refine .intro (by rwa [hsort]) ?_
  rwa [hchildren]

end NestsWithin

variable {o : Options} {p : Push} {n : Nat}

/-! ### New and cleared columns -/

theorem nestsWithin_leaf {c : Column} (hsort : c.isContainer = false) (hc : c.children = []) :
    c.NestsWithin n := by
  refine .of_children (by rw [hsort]; exact n.zero_le) ?_
  rw [hc]
  nofun

theorem nestsWithin_unknown (m : Nat) : (unknown m).NestsWithin n := nestsWithin_leaf rfl rfl

/-- A new column nests as deep as containers are open in it. -/
theorem nestsWithin_first {k : ElementClass} (hp : p.elementClass? = some k)
    (hlevels : (first o p).levels.length ≤ n) : (first o p).NestsWithin n := by
  rw [levels_first hp] at hlevels
  refine .of_children ?_ fun d hd => ?_
  · cases p with
    | beginList | beginTuple => exact hlevels
    | beginRecord name =>
      obtain ⟨fields, settled, declared, he, -, -⟩ := exists_first_beginRecord o name
      rw [he]
      exact hlevels
    | bool | int | real | complex | time | string => exact n.zero_le
    | _ => cases hp
  · rw [eq_unknown_of_mem_children_first hp hd]
    exact nestsWithin_unknown 0

theorem nestsWithin_clear {c : Column} (h : c.NestsWithin n) : c.clear.NestsWithin n := by
  induction h with
  | @intro n m c hown _ ih =>
    have hsort : c.clear.isContainer = c.isContainer := by
      cases c <;> simp only [clear, isContainer]
    refine .intro (by rwa [hsort]) ?_
    rw [children_clear]
    exact List.forall_mem_map.mpr ih

theorem nestsWithin_appendNull {c : Column} (h : c.NestsWithin n) : c.appendNull.NestsWithin n := by
  rcases kind_cases c with ⟨m, rfl⟩ | ⟨index, content, rfl⟩ | ⟨hu, ho⟩
  · exact nestsWithin_unknown (m + 1)
  · exact h.congr rfl rfl
  · rw [appendNull_of_kind hu ho]
    refine .of_children n.zero_le fun d hd => ?_
    rw [List.mem_singleton.mp hd]
    exact h

theorem nestsWithin_fillSlot {c : Column} (row : Nat) (h : c.NestsWithin n) :
    (fillSlot row c).NestsWithin n := by
  unfold fillSlot
  split
  · exact nestsWithin_appendNull h
  · exact h

/-! ### Pushes -/

theorem isContainer_accept (c : Column) (p : Push) : (c.accept p).isContainer = c.isContainer := by
  cases c <;> cases p <;> rfl

/-- **A push that is taken nests no deeper than containers are open after it**, or than it was. -/
theorem NestsWithin.takes {c c' : Column} (h : c.NestsWithin n) (ht : Takes o c p c')
    (hlevels : c'.levels.length ≤ n) : c'.NestsWithin n := by
  induction c using Column.induct generalizing n p c' with
  | node c ih =>
    have hold : ∀ d ∈ c.children, d.NestsWithin (n - c.isContainer.toNat) := fun d => h.child
    have hnew : ∀ d ∈ c.children, ∀ {d' : Column}, Takes o d p d' →
        d'.levels.length ≤ n - c.isContainer.toNat → d'.NestsWithin (n - c.isContainer.toNat) :=
      fun d hd _ ht hle => ih d hd (h.child hd) ht hle
    have hself : ∀ e ∈ [c], e.NestsWithin n := fun e he => by rwa [List.mem_singleton.mp he]
    cases ht with
    | unknown_null => exact nestsWithin_unknown _
    | unknown_first nulls hp =>
      rw [levels_afterNulls] at hlevels
      have hfirst := nestsWithin_first hp hlevels
      unfold afterNulls
      split
      · exact hfirst
      · refine .of_children n.zero_le fun d hd => ?_
        rw [List.mem_singleton.mp hd]
        exact hfirst
    | option_null | list_end | tuple_index | record_field => exact h.congr rfl rfl
    | option_present _ _ ht | option_open _ ht =>
      rw [levels_option] at hlevels
      refine .of_children n.zero_le fun d hd => ?_
      rw [List.mem_singleton.mp hd]
      exact hnew _ (List.mem_singleton_self _) ht hlevels
    | first_null => exact .of_children n.zero_le hself
    | own => exact h.congr (isContainer_accept c p) (children_accept c p)
    | other _ hp =>
      rw [joinedBy, levels_addChild] at hlevels
      exact .of_children n.zero_le (forall_mem_concat hself (nestsWithin_first hp hlevels))
    | list_item ht =>
      rw [levels_list_open, List.length_append, List.length_singleton] at hlevels
      refine .of_children h.own_le fun d hd => ?_
      rw [List.mem_singleton.mp hd]
      exact hnew _ (List.mem_singleton_self _) ht (Nat.le_sub_of_add_le hlevels)
    | tuple_end =>
      refine .of_children h.own_le fun d hd => ?_
      obtain ⟨e, he, rfl⟩ := List.mem_map.mp hd
      exact nestsWithin_fillSlot _ (hold e he)
    | @tuple_slot slots row i e e' _ hi _ ht =>
      rw [levels_tuple (getElem?_set_of_getElem? hi e'), List.length_append,
        List.length_singleton] at hlevels
      exact .of_children h.own_le (forall_mem_set hold
        (hnew _ (List.mem_of_getElem? hi) ht (Nat.le_sub_of_add_le hlevels)))
    | record_new =>
      refine .of_children h.own_le fun d hd => ?_
      rw [Column.children, columnsOf_concat] at hd
      exact forall_mem_concat hold (nestsWithin_unknown _) d hd
    | record_end =>
      refine .of_children h.own_le fun d hd => ?_
      rw [Column.children, columnsOf_fillFields] at hd
      obtain ⟨e, he, rfl⟩ := List.mem_map.mp hd
      exact nestsWithin_fillSlot _ (hold e he)
    | @record_slot name fields row i settled declared e e' _ hi _ ht =>
      rw [levels_record (getElem?_setField hi e'), List.length_append,
        List.length_singleton] at hlevels
      refine .of_children h.own_le fun d hd => ?_
      rw [Column.children, columnsOf_setField] at hd
      exact forall_mem_set hold
        (hnew _ (List.mem_of_getElem? hi) ht (Nat.le_sub_of_add_le hlevels)) d hd
    | @union_own tags index children tag e e' _ _ _ _ hi ht
    | @union_open tags index children tag e e' _ hi ht =>
      rw [levels_openTag (getElem?_set_of_getElem? hi e')] at hlevels
      exact .of_children n.zero_le
        (forall_mem_set hold (hnew _ (List.mem_of_getElem? hi) ht hlevels))
    | union_new hp =>
      rw [levels_addChild] at hlevels
      exact .of_children n.zero_le (forall_mem_concat hold (nestsWithin_first hp hlevels))

end Column

/-! ### Forms -/

/-- Annotations without arrays and objects. -/
def FormLabel.IsFlat (l : FormLabel) : Prop := ∀ e ∈ l.parameters, e.2.nesting = 0

namespace Form

theorem memberNesting_le_iff {ms : List (String × Document)} {k : Nat} :
    Document.memberNesting ms ≤ k ↔ ∀ e ∈ ms, e.2.nesting ≤ k := by
  induction ms with
  | nil => simp [Document.memberNesting]
  | cons m ms ih =>
    obtain ⟨key, d⟩ := m
    simp [Document.memberNesting, ih]

theorem itemNesting_toDocuments_le {fs : List Form} {k : Nat}
    (h : ∀ f ∈ fs, f.toDocument.nesting ≤ k) : Document.itemNesting (toDocuments fs) ≤ k := by
  induction fs with
  | nil => exact k.zero_le
  | cons f fs ih =>
    rw [toDocuments, Document.itemNesting]
    exact Nat.max_le.mpr ⟨h f List.mem_cons_self, ih fun g hg => h g (List.mem_cons_of_mem _ hg)⟩

theorem itemNesting_strings (ks : List String) : Document.itemNesting (ks.map .string) = 0 := by
  induction ks with
  | nil => rfl
  | cons k ks ih => rw [List.map_cons, Document.itemNesting, ih]; rfl

theorem nesting_labelMembers_le {l : FormLabel} (h : l.IsFlat) :
    ∀ e ∈ labelMembers l, e.2.nesting ≤ 1 := by
  intro e he
  rcases List.mem_append.mp he with he | he
  · split_ifs at he
    · cases he
    · rw [List.mem_singleton.mp he, Document.nesting]
      have hle : Document.memberNesting l.parameters ≤ 0 :=
        memberNesting_le_iff.mpr fun e he => Nat.le_of_eq (h e he)
      omega
  · rw [List.mem_singleton.mp he]
    cases l.key? <;> exact Nat.zero_le 1

/-- A form nests one level deeper than what its class has. -/
theorem nesting_toDocument_le {f : Form} {k : Nat} (hlabel : f.label.IsFlat) (hk : 1 ≤ k)
    (hown : ∀ e ∈ f.ownMembers, e.2.nesting ≤ k) : f.toDocument.nesting ≤ k + 1 := by
  rw [toDocument_eq, Document.nesting, Nat.add_comm]
  refine Nat.succ_le_succ (memberNesting_le_iff.mpr fun e he => ?_)
  rcases List.mem_append.mp he with he | he
  · exact hown e he
  · exact Nat.le_trans (nesting_labelMembers_le hlabel e he) hk

/-- How many levels a node adds: its object, and the array of its contents if it has one. -/
def ownLevels : Form → Nat
  | .record _ _ _ => 2
  | .union _ _ _ _ => 2
  | _ => 1

/-- A form nests as deep as its contents, below the levels of its own. -/
theorem nesting_le {f : Form} {k : Nat} (hlabel : f.label.IsFlat) (hk : 1 ≤ k)
    (h : ∀ g ∈ f.contents, g.toDocument.nesting ≤ k) :
    f.toDocument.nesting ≤ k + f.ownLevels := by
  cases f with
  | empty | flat =>
    refine nesting_toDocument_le hlabel hk fun e he => ?_
    simp only [ownMembers, List.mem_cons, List.not_mem_nil, or_false] at he
    rcases he with rfl | rfl <;> exact k.zero_le
  | list width c l | option width c l =>
    refine nesting_toDocument_le hlabel hk fun e he => ?_
    simp only [ownMembers, List.mem_cons, List.not_mem_nil, or_false] at he
    rcases he with rfl | rfl | rfl
    · exact k.zero_le
    · exact k.zero_le
    · exact h c (List.mem_singleton_self c)
  | record fs keys l =>
    have hcontents : Document.itemNesting (toDocuments fs) ≤ k := itemNesting_toDocuments_le h
    refine nesting_toDocument_le (k := k + 1) hlabel (by omega) fun e he => ?_
    simp only [ownMembers, List.mem_cons, List.not_mem_nil, or_false] at he
    rcases he with rfl | rfl | rfl
    · exact Nat.zero_le _
    · rw [Document.nesting]
      omega
    · cases keys with
      | none => exact Nat.zero_le _
      | some ks =>
        rw [Option.map_some, Option.getD_some, Document.nesting, itemNesting_strings]
        omega
  | union tags width fs l =>
    have hcontents : Document.itemNesting (toDocuments fs) ≤ k := itemNesting_toDocuments_le h
    refine nesting_toDocument_le (k := k + 1) hlabel (by omega) fun e he => ?_
    simp only [ownMembers, List.mem_cons, List.not_mem_nil, or_false] at he
    rcases he with rfl | rfl | rfl | rfl
    · exact Nat.zero_le _
    · exact Nat.zero_le _
    · exact Nat.zero_le _
    · rw [Document.nesting]
      omega

end Form

namespace Column

variable {partition : String} {n : Nat}

/-- How much deeper the form of a wrapper nests than that of a column of a class. -/
def wrapping : Column → Nat
  | .option _ _ => 3
  | .union _ _ _ _ => 2
  | _ => 0

theorem wrapping_le (c : Column) : c.wrapping ≤ 3 := by
  cases c <;> simp [wrapping]

theorem wrapping_le_of_kind {c : Column} (h : c.kind ≠ .option) : c.wrapping ≤ 2 := by
  cases c with
  | option => exact absurd rfl h
  | _ => simp [wrapping]

theorem wrapping_of_class? {c : Column} (h : c.class?.isSome) : c.wrapping = 0 := by
  cases c with
  | option | union => cases h
  | _ => rfl

theorem isFlat_annotate {ps : Parameters} {key? : Option String} (h : FormLabel.IsFlat ⟨ps, key?⟩)
    (c : Column) : FormLabel.IsFlat ⟨c.annotate ps, key?⟩ := by
  refine annotate_of_assign (P := fun ps => FormLabel.IsFlat ⟨ps, key?⟩) ?_ c h
  intro ps name s h e he
  rcases mem_assign he with he | rfl
  · exact h e he
  · rfl

/-- **The form of a sound column nests five levels for a container**, three for a string, and
three more for an option or two for a union around them. -/
theorem nesting_layout {c : Column} (hs : c.Sound) (hn : c.NestsWithin n) {ps : Parameters}
    (hps : FormLabel.IsFlat ⟨ps, none⟩) (next : Nat) :
    (c.layout partition ps next).form.toDocument.nesting ≤ 5 * n + 3 + c.wrapping := by
  induction c using Column.induct generalizing n ps next with
  | node c ih =>
    have hnil : FormLabel.IsFlat ⟨[], none⟩ := nofun
    have hown := hn.own_le
    have hlabel : (c.layout partition ps next).form.label.IsFlat := by
      rw [label_layout]
      exact isFlat_annotate hps c
    have hcontents : ∀ {k : Nat}, 2 ≤ k →
        (∀ d ∈ c.children, 5 * (n - c.isContainer.toNat) + 3 + d.wrapping ≤ k) →
        ∀ g ∈ (c.layout partition ps next).form.contents, g.toDocument.nesting ≤ k := by
      intro k hk hchildren g hg
      rcases exists_of_mem_contents hg with ⟨d, hd, m, rfl⟩ | ⟨key?, rfl | ⟨encoding, rfl⟩⟩
      · exact Nat.le_trans (ih d hd (hs.children d hd) (hn.child hd) hnil m) (hchildren d hd)
      · exact Nat.le_trans (Form.nesting_le (k := 1) nofun le_rfl nofun) hk
      · refine Nat.le_trans (Form.nesting_le (k := 1) ?_ le_rfl nofun) hk
        intro e he
        rw [List.mem_singleton.mp he]
        rfl
    cases c with
    | unknown m =>
      refine Nat.le_trans (Form.nesting_le (k := 2) hlabel one_le_two
        (hcontents le_rfl nofun)) ?_
      cases m <;> exact (show 2 + 1 ≤ 5 * n + 3 by omega)
    | bool | int64 | float64 | complex128 | time | string =>
      exact Nat.le_trans (Form.nesting_le (k := 2) hlabel one_le_two (hcontents le_rfl nofun))
        (show 2 + 1 ≤ 5 * n + 3 by omega)
    | option index content =>
      -- the content is neither unknown nor an option, so at most a union is between them
      have hoption : OptionSound index content := hs.node
      have hwrap := wrapping_le_of_kind hoption.not_option
      refine Form.nesting_le (k := 5 * n + 5) hlabel (by omega)
        (hcontents (by omega) fun d hd => ?_)
      rw [List.mem_singleton.mp hd]
      exact (show 5 * n + 3 + content.wrapping ≤ 5 * n + 5 by omega)
    | list offsets content isOpen =>
      have hle : 1 ≤ n := hown
      exact Nat.le_trans (Form.nesting_le (k := 5 * (n - 1) + 6) hlabel (by omega)
        (hcontents (by omega) fun d _ => Nat.add_le_add_left d.wrapping_le _))
        (show 5 * (n - 1) + 6 + 1 ≤ 5 * n + 3 by omega)
    | tuple | record =>
      have hle : 1 ≤ n := hown
      exact Nat.le_trans (Form.nesting_le (k := 5 * (n - 1) + 6) hlabel (by omega)
        (hcontents (by omega) fun d _ => Nat.add_le_add_left d.wrapping_le _))
        (show 5 * (n - 1) + 6 + 2 ≤ 5 * n + 3 by omega)
    | union tags index children current =>
      have hunion : UnionSound tags index children current := hs.node
      refine Form.nesting_le (k := 5 * n + 3) hlabel (by omega)
        (hcontents (by omega) fun d hd => ?_)
      rw [wrapping_of_class? (hunion.classes d hd)]
      exact le_rfl

end Column

namespace Builder

theorem depth_le_of_push {b b' : Builder} {p : Push} (h : b.push p = .ok b')
    (hdepth : b.depth ≤ b.options.maxDepth) : b'.depth ≤ b'.options.maxDepth := by
  have hcause : ¬ (p.opens?.isSome = true ∧ b.options.maxDepth ≤ b.depth) := by
    intro hfull
    unfold push at h
    have hsome : ∃ cause, b.cause? p = some cause := by
      unfold cause?
      split <;> exact ⟨_, rfl⟩
    obtain ⟨cause, hcause⟩ := hsome
    rw [hcause] at h
    cases h
  rw [depth_push h, (push_eq_ok h).2.1, depthAfter]
  split_ifs with hopens
  · exact Nat.lt_of_not_le fun hle => hcause ⟨hopens, hle⟩
  · omega
  · exact hdepth

/-- **Containers nest within the limit on open ones**, in every state that calls come to. -/
theorem nestsWithin_run (o : Options) (calls : List Request) :
    ((new o).run calls).root.NestsWithin o.maxDepth ∧ ((new o).run calls).depth ≤ o.maxDepth := by
  induction calls using List.reverseRecOn with
  | nil => exact ⟨Column.nestsWithin_unknown 0, o.maxDepth.zero_le⟩
  | append_singleton calls call ih =>
    obtain ⟨hnests, hdepth⟩ := ih
    have hopens := (opens_new o).run calls
    have hoptions := options_run (new o) calls
    rw [run_concat]
    cases call with
    | push p =>
      rcases after_push ((new o).run calls) p with ⟨b', hpush, hafter⟩ | ⟨-, hafter⟩
      · have hnext := hopens.push hpush
        have hle : b'.depth ≤ b'.options.maxDepth :=
          depth_le_of_push hpush (by rw [hoptions]; exact hdepth)
        rw [(push_eq_ok hpush).2.1, hoptions] at hle
        rw [hafter]
        refine ⟨hnests.takes (Column.takes_of_push hopens.sound (push_eq_ok hpush).1) ?_, hle⟩
        rw [hnext.levels_eq, ← hnext.depth_eq]
        exact hle
      · rw [hafter]
        exact ⟨hnests, hdepth⟩
    | clear => exact ⟨Column.nestsWithin_clear hnests, Nat.zero_le _⟩
    | finalize | setParameter => exact ⟨hnests, hdepth⟩

end Builder

end Columnar
