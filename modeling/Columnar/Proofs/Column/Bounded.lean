import Columnar.Proofs.Run

/-!
# How long columns grow

A push gives every column of a tree at most one more element, so no column has more
elements than there were calls.

## Main definitions

* `Column.Bounded` — no node of a column has more than a number of elements.

## Main results

* `Column.Bounded.takes` — a push raises the bound by one.
* `Builder.bounded_run` — **no column of a builder has more elements than there were calls.**
-/

namespace Columnar

namespace Column

/-- No node of a column has more than `n` elements. -/
def Bounded (n : Nat) (c : Column) : Prop := ∀ d : Column, d.IsNode c → d.length ≤ n

namespace Bounded

variable {n m : Nat} {c : Column}

theorem intro (h : c.length ≤ n) (hc : ∀ d ∈ c.children, d.Bounded n) : c.Bounded n := by
  intro d hd
  cases hd with
  | root => exact h
  | child hmem he => exact hc _ hmem d he

theorem length (h : c.Bounded n) : c.length ≤ n := h c (.root c)

theorem children (h : c.Bounded n) {d : Column} (hd : d ∈ c.children) : d.Bounded n :=
  fun e he => h e (.child hd he)

theorem mono (h : c.Bounded n) (hle : n ≤ m) : c.Bounded m :=
  fun d hd => Nat.le_trans (h d hd) hle

end Bounded

/-! ### New and cleared columns -/

variable {o : Options} {p : Push}

theorem bounded_unknown {n m : Nat} (h : m ≤ n) : (unknown m).Bounded n :=
  .intro h nofun

/-- Nothing but empty columns is directly below a new column. -/
theorem eq_unknown_of_mem_children_first {k : ElementClass} {d : Column}
    (hp : p.elementClass? = some k) (hd : d ∈ (first o p).children) : d = .unknown 0 := by
  cases p with
  | beginList => exact List.mem_singleton.mp hd
  | beginTuple arity => exact List.eq_of_mem_replicate hd
  | beginRecord name =>
    obtain ⟨fields, settled, declared, he, hu, -⟩ := exists_first_beginRecord o name
    rw [he] at hd
    exact hu d hd
  | bool | int | real | complex | time | string => cases hd
  | _ => cases hp

theorem bounded_first {k : ElementClass} (hp : p.elementClass? = some k) :
    (first o p).Bounded 1 := by
  have hlen := length_first (o := o) hp
  refine .intro (by omega) fun d hd => ?_
  rw [eq_unknown_of_mem_children_first hp hd]
  exact bounded_unknown (Nat.zero_le 1)

theorem children_accept (c : Column) (p : Push) : (c.accept p).children = c.children := by
  cases c <;> cases p <;> rfl

theorem children_clear (c : Column) : c.clear.children = c.children.map clear := by
  cases c <;> simp [clear, children, clearAll_eq, columnsOf_clearFields]

theorem bounded_clear (c : Column) : c.clear.Bounded 0 := by
  induction c using Column.induct with
  | node c ih =>
    refine .intro (Nat.le_of_eq (empty_clear c).1) ?_
    intro d hd
    rw [children_clear] at hd
    obtain ⟨e, he, rfl⟩ := List.mem_map.mp hd
    exact ih e he

/-! ### Pushes -/

theorem bounded_afterNulls_children (nulls n : Nat) {k : ElementClass}
    (hp : p.elementClass? = some k) {d : Column}
    (hd : d ∈ (afterNulls nulls (first o p)).children) : d.Bounded (n + 1) := by
  have hfirst := (bounded_first (o := o) hp).mono (Nat.succ_le_succ (Nat.zero_le n))
  unfold afterNulls at hd
  split at hd
  · exact hfirst.children hd
  · rw [List.mem_singleton.mp hd]
    exact hfirst

theorem bounded_fillSlot {n row : Nat} {c : Column} (hb : c.Bounded n) (ha : c.isActive = false) :
    (fillSlot row c).Bounded (n + 1) := by
  have hlen := hb.length
  rcases fillSlot_eq row c with he | ⟨he, -⟩
  · rw [he]
    exact hb.mono (Nat.le_succ n)
  · rw [he]
    refine .intro (by rw [length_appendNull ha]; omega) ?_
    intro d hd
    cases c with
    | unknown m => cases hd
    | option index content => exact (hb.children hd).mono (Nat.le_succ n)
    | _ =>
      rw [List.mem_singleton.mp hd]
      exact hb.mono (Nat.le_succ n)

/-- A push raises the bound by one. -/
theorem Bounded.takes {n : Nat} {c c' : Column} (hs : c.Sound) (hb : c.Bounded n)
    (h : Takes o c p c') : c'.Bounded (n + 1) := by
  induction c using Column.induct generalizing p c' with
  | node c ih =>
    have hlen := h.length_add hs
    have hle := hb.length
    have hold : ∀ d ∈ c.children, d.Bounded (n + 1) := fun d hd =>
      (hb.children hd).mono (Nat.le_succ n)
    have hnew : ∀ d ∈ c.children, ∀ {d' : Column}, Takes o d p d' → d'.Bounded (n + 1) :=
      fun d hd _ ht => ih d hd (hs.children d hd) (hb.children hd) ht
    have hfirst : ∀ {k : ElementClass}, p.elementClass? = some k → (first o p).Bounded (n + 1) :=
      fun hp => (bounded_first hp).mono (Nat.succ_le_succ (Nat.zero_le n))
    refine .intro (by omega) ?_
    intro d hd
    cases h with
    | unknown_null => cases hd
    | unknown_first nulls hp => exact bounded_afterNulls_children nulls n hp hd
    | option_null | list_end | tuple_index | record_field => exact hold d hd
    | option_present _ _ ht | option_open _ ht | list_item ht =>
      rw [List.mem_singleton.mp hd]
      exact hnew _ (List.mem_singleton_self _) ht
    | first_null =>
      rw [List.mem_singleton.mp hd]
      exact hb.mono (Nat.le_succ n)
    | own =>
      rw [children_accept] at hd
      exact hold d hd
    | other _ hp =>
      refine forall_mem_concat ?_ (hfirst hp) d hd
      intro e he
      rw [List.mem_singleton.mp he]
      exact hb.mono (Nat.le_succ n)
    | tuple_end hidle =>
      obtain ⟨e, he, rfl⟩ := List.mem_map.mp hd
      exact bounded_fillSlot (hb.children he) (SlotsSound.not_active hs.node hidle he)
    | tuple_slot hi _ ht =>
      exact forall_mem_set hold (hnew _ (List.mem_of_getElem? hi) ht) d hd
    | record_new =>
      rw [Column.children, columnsOf_concat] at hd
      exact forall_mem_concat hold (bounded_unknown (Nat.le_succ_of_le hle)) d hd
    | record_end hidle =>
      rw [Column.children, columnsOf_fillFields] at hd
      obtain ⟨e, he, rfl⟩ := List.mem_map.mp hd
      exact bounded_fillSlot (hb.children he) (hs.node.1.not_active hidle he)
    | record_slot hi _ ht =>
      rw [Column.children, columnsOf_setField] at hd
      exact forall_mem_set hold (hnew _ (List.mem_of_getElem? hi) ht) d hd
    | union_own _ _ hi ht | union_open hi ht =>
      exact forall_mem_set hold (hnew _ (List.mem_of_getElem? hi) ht) d hd
    | union_new hp => exact forall_mem_concat hold (hfirst hp) d hd

end Column

namespace Builder

theorem bounded_after {b : Builder} {n : Nat} (hs : b.root.Sound) (hb : b.root.Bounded n)
    (call : Request) : (b.after call).root.Bounded (n + 1) := by
  cases call with
  | push p =>
    rcases after_push b p with ⟨b', hpush, hafter⟩ | ⟨-, hafter⟩
    · rw [hafter]
      exact hb.takes hs (Column.takes_of_push hs (push_eq_ok hpush).1)
    · rw [hafter]
      exact hb.mono (Nat.le_succ n)
  | clear => exact (Column.bounded_clear _).mono (Nat.zero_le _)
  | finalize | setParameter => exact hb.mono (Nat.le_succ n)

/-- **No column of a builder has more elements than there were calls.** -/
theorem bounded_run (o : Options) (calls : List Request) :
    ((new o).run calls).root.Bounded calls.length := by
  induction calls using List.reverseRecOn with
  | nil => exact Column.bounded_unknown (Nat.le_refl 0)
  | append_singleton calls call ih =>
    rw [run_concat, List.length_append, List.length_singleton]
    exact bounded_after (sound_run o calls) ih call

end Builder

end Columnar
