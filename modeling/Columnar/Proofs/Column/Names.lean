import Columnar.Column.Layout
import Columnar.Proofs.Column.Nodes
import Columnar.Proofs.Table

/-!
# The names of buffers

The buffers of a layout stand under the numbers of their nodes, and every node has a number
of its own.  So no two buffers have one name, and each is found under its name.

## Main definitions

* `Numbered` — buffers under the numbers of a range, all under different names.
* `Stored` — buffers that are found in a table.

## Main results

* `bufferName_inj` — a name tells the number of the node and the role of the buffer.
* `Column.numbered_layout` — the buffers of a layout are under the numbers of its nodes.
* `Column.stored_layout` — each buffer of a layout is found under its name.
-/

namespace Columnar

/-! ### Names -/

theorem dash_not_mem_toDigits (n : Nat) : '-' ∉ Nat.toDigits 10 n := fun h =>
  absurd (Nat.isDigit_of_mem_toDigits (by decide) (by decide) h) (by decide)

theorem toDigits_inj {a b : Nat} (h : Nat.toDigits 10 a = Nat.toDigits 10 b) : a = b := by
  rw [← Nat.ofDigitChars_ten_toDigits (n := a), h, Nat.ofDigitChars_ten_toDigits]

/-- Two lists are split at their first dashes alike. -/
theorem append_dash_inj {xs ys zs ws : List Char} (hx : '-' ∉ xs) (hy : '-' ∉ ys)
    (h : xs ++ '-' :: zs = ys ++ '-' :: ws) : xs = ys ∧ zs = ws := by
  induction xs generalizing ys with
  | nil =>
    cases ys with
    | nil => exact ⟨rfl, List.tail_eq_of_cons_eq h⟩
    | cons y ys =>
      have hhead : '-' = y := List.head_eq_of_cons_eq h
      exact absurd (hhead ▸ List.mem_cons_self) hy
  | cons x xs ih =>
    cases ys with
    | nil =>
      have hhead : x = '-' := List.head_eq_of_cons_eq h
      exact absurd (hhead ▸ List.mem_cons_self) hx
    | cons y ys =>
      obtain ⟨rfl, htail⟩ := List.cons.inj h
      obtain ⟨rfl, rfl⟩ := ih (fun hm => hx (List.mem_cons_of_mem _ hm))
        (fun hm => hy (List.mem_cons_of_mem _ hm)) htail
      exact ⟨rfl, rfl⟩

/-- A name tells the number of the node and the role of the buffer. -/
theorem bufferName_inj {partition role role' : String} {a b : Nat}
    (h : bufferName partition (nodeKey a) role = bufferName partition (nodeKey b) role') :
    a = b ∧ role = role' := by
  have hlist := congrArg String.toList h
  simp only [bufferName, nodeKey, String.toList_append, List.append_assoc,
    List.append_cancel_left_eq, Nat.toString_eq_repr, Nat.toList_repr] at hlist
  obtain ⟨hdigits, hrole⟩ :=
    append_dash_inj (dash_not_mem_toDigits a) (dash_not_mem_toDigits b) hlist
  exact ⟨toDigits_inj hdigits, String.toList_inj.mp hrole⟩

/-! ### Numbered buffers -/

/-- Buffers of the nodes with the numbers from `first` up to `next`, all under different
names. -/
structure Numbered (partition : String) (first : Nat) (buffers : Buffers) (next : Nat) : Prop where
  /-- The range. -/
  le : first ≤ next
  /-- Every name is that of a node in the range. -/
  names : ∀ e ∈ buffers, ∃ n role, first ≤ n ∧ n < next ∧
    e.1 = bufferName partition (nodeKey n) role
  /-- No name stands twice. -/
  nodup : (buffers.map Prod.fst).Nodup

namespace Numbered

variable {partition : String} {first middle next : Nat} {xs ys : Buffers}

theorem nil (h : first ≤ next) : Numbered partition first [] next :=
  ⟨h, nofun, List.nodup_nil⟩

/-- Buffers of one range and of the range after it. -/
theorem append (hx : Numbered partition first xs middle) (hy : Numbered partition middle ys next) :
    Numbered partition first (xs ++ ys) next := by
  refine ⟨Nat.le_trans hx.le hy.le, ?_, ?_⟩
  · intro e he
    rcases List.mem_append.mp he with he | he
    · obtain ⟨n, role, hfirst, hlast, hname⟩ := hx.names e he
      exact ⟨n, role, hfirst, Nat.lt_of_lt_of_le hlast hy.le, hname⟩
    · obtain ⟨n, role, hfirst, hlast, hname⟩ := hy.names e he
      exact ⟨n, role, Nat.le_trans hx.le hfirst, hlast, hname⟩
  · rw [List.map_append]
    refine List.nodup_append.mpr ⟨hx.nodup, hy.nodup, ?_⟩
    intro a ha b hb hab
    obtain ⟨e, he, rfl⟩ := List.mem_map.mp ha
    obtain ⟨e', he', rfl⟩ := List.mem_map.mp hb
    obtain ⟨n, role, -, hlast, hname⟩ := hx.names e he
    obtain ⟨n', role', hfirst, -, hname'⟩ := hy.names e' he'
    rw [hname, hname'] at hab
    have hn := (bufferName_inj hab).1
    omega

/-- The one buffer of a node. -/
theorem single (n : Nat) (role : String) (b : Buffer) :
    Numbered partition n [(bufferName partition (nodeKey n) role, b)] (n + 1) := by
  refine ⟨Nat.le_succ n, ?_, List.nodup_singleton _⟩
  intro e he
  rw [List.mem_singleton.mp he]
  exact ⟨n, role, Nat.le_refl n, Nat.lt_succ_self n, rfl⟩

/-- The two buffers of a node. -/
theorem pair (n : Nat) {role role' : String} (h : role ≠ role') (b b' : Buffer) :
    Numbered partition n [(bufferName partition (nodeKey n) role, b),
      (bufferName partition (nodeKey n) role', b')] (n + 1) := by
  refine ⟨Nat.le_succ n, ?_, ?_⟩
  · intro e he
    rcases List.mem_cons.mp he with rfl | he
    · exact ⟨n, role, Nat.le_refl n, Nat.lt_succ_self n, rfl⟩
    · rw [List.mem_singleton.mp he]
      exact ⟨n, role', Nat.le_refl n, Nat.lt_succ_self n, rfl⟩
  · refine List.nodup_cons.mpr ⟨?_, List.nodup_singleton _⟩
    intro hmem
    exact h (bufferName_inj (List.mem_singleton.mp hmem)).2

end Numbered

namespace Column

variable {partition : String}

/-- The layouts of fields are those of their columns. -/
theorem fieldLayouts_eq (fields : List (String × Column)) (next : Nat) :
    fieldLayouts partition next fields = layouts partition next (columnsOf fields) := by
  induction fields generalizing next with
  | nil => rfl
  | cons f rest ih =>
    rw [fieldLayouts, ih]
    rfl

theorem numbered_layouts {cs : List Column}
    (h : ∀ c ∈ cs, ∀ next, Numbered partition next (c.layout partition [] next).buffers
      (c.layout partition [] next).next) (next : Nat) :
    Numbered partition next (layouts partition next cs).buffers
      (layouts partition next cs).next := by
  induction cs generalizing next with
  | nil => exact .nil (Nat.le_refl next)
  | cons c cs ih =>
    exact (h c List.mem_cons_self next).append
      (ih (fun d hd => h d (List.mem_cons_of_mem _ hd)) _)

/-- The buffers of a layout are under the numbers of its nodes. -/
theorem numbered_layout (c : Column) (ps : Parameters) (next : Nat) :
    Numbered partition next (c.layout partition ps next).buffers
      (c.layout partition ps next).next := by
  induction c using Column.induct generalizing ps next with
  | node c ih =>
    cases c with
    | unknown n =>
      cases n with
      | zero => exact .nil (Nat.le_succ next)
      | succ n => exact (Numbered.single next _ _).append (.nil (Nat.le_succ _))
    | bool | int64 | float64 | complex128 | time => exact .single next _ _
    | string encoding offsets data =>
      exact (Numbered.single next _ _).append (.single (next + 1) _ _)
    | option index content =>
      exact (Numbered.single next _ _).append (ih content (List.mem_singleton_self _) [] _)
    | list offsets content isOpen =>
      exact (Numbered.single next _ _).append (ih content (List.mem_singleton_self _) [] _)
    | tuple slots n filling =>
      exact (Numbered.nil (Nat.le_succ next)).append
        (numbered_layouts (fun c hc => ih c hc []) _)
    | record name fields n filling settled declared =>
      rw [layout, fieldLayouts_eq]
      exact (Numbered.nil (Nat.le_succ next)).append
        (numbered_layouts (fun c hc => ih c hc []) _)
    | union tags index children current =>
      exact (Numbered.pair next (by decide) _ _).append
        (numbered_layouts (fun c hc => ih c hc []) _)

end Column

/-! ### Stored buffers -/

/-- Every buffer is found in a table under its name. -/
def Stored (table buffers : Buffers) : Prop := ∀ e ∈ buffers, lookup table e.1 = some e.2

/-- Each buffer of a layout is found under its name. -/
theorem Column.stored_layout (partition : String) (c : Column) (ps : Parameters) (next : Nat) :
    Stored (c.layout partition ps next).buffers (c.layout partition ps next).buffers :=
  fun _ he => lookup_of_mem (c.numbered_layout ps next).nodup he

end Columnar
