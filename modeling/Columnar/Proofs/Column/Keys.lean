import Columnar.Proofs.Column.Yields
import Columnar.Proofs.Form.Lookups

/-!
# The keys of a layout

A layout numbers its nodes from the root down, each node before the nodes below it, and leaves
out no number.  The reader builds the names of buffers out of these keys once more, and they
are the names under which the buffers were laid out.  A partition shows in nothing else but in
these names.

## Main definitions

* `Form.keys` — the keys of all nodes, each node before the nodes below it.
* `nodeKeys` — the keys of a range of numbers.
* `Cell` — a buffer by the key of its node and its role there, in whatever partition.
* `LaidOut` — a form and cells, laid out in every partition.

## Main results

* `Column.exists_laidOut` — **a layout has its nodes numbered without gaps, and its buffers
  under the names by which they are looked up**, in every partition alike.
* `Form.mem_bufferNames` — a name is made of the key of a node and a role.
-/

namespace Columnar

/-! ### Keys of nodes -/

namespace Form

mutual

/-- The keys of all nodes, each node before the nodes below it. -/
def keys : Form → List (Option String)
  | .empty l => [l.key?]
  | .flat _ l => [l.key?]
  | .list _ content l => l.key? :: keys content
  | .option _ content l => l.key? :: keys content
  | .record contents _ l => l.key? :: allKeys contents
  | .union _ _ contents l => l.key? :: allKeys contents

/-- The keys of all nodes of several forms. -/
def allKeys : List Form → List (Option String)
  | [] => []
  | f :: fs => keys f ++ allKeys fs

end

theorem key?_mem_keys (f : Form) : f.key? ∈ f.keys := by
  cases f <;> rw [keys] <;> exact List.mem_cons_self

theorem keys_eq_cons (f : Form) : ∃ below, f.keys = f.key? :: below ∧
    ∀ g ∈ f.contents, ∀ key ∈ g.keys, key ∈ below := by
  have hall : ∀ fs : List Form, ∀ g ∈ fs, ∀ key ∈ g.keys, key ∈ allKeys fs := by
    intro fs
    induction fs with
    | nil => nofun
    | cons f fs ih =>
      intro g hg key hkey
      rw [allKeys]
      rcases List.mem_cons.mp hg with rfl | hg
      · exact List.mem_append_left _ hkey
      · exact List.mem_append_right _ (ih g hg key hkey)
  cases f with
  | empty l | flat primitive l => exact ⟨[], by rw [keys]; rfl, nofun⟩
  | list width content l | option width content l =>
    exact ⟨content.keys, by rw [keys]; rfl, List.forall_mem_singleton.mpr fun _ h => h⟩
  | record fs names l | union tagWidth width fs l => exact ⟨allKeys fs, by rw [keys]; rfl, hall fs⟩

/-- The roles that buffers have. -/
def roles : List String := ["data", "offsets", "index", "tags"]

/-- A name is made of the key of a node and a role. -/
theorem mem_bufferNames {partition name : String} (f : Form) (h : name ∈ f.bufferNames partition) :
    ∃ key ∈ f.keys, ∃ role ∈ roles, name = bufferName partition (key.getD "") role := by
  induction f using induct with
  | node f ih =>
    obtain ⟨below, hkeys, hbelow⟩ := f.keys_eq_cons
    have hown : ∀ role ∈ roles, name = f.nameOf partition role →
        ∃ key ∈ f.keys, ∃ role ∈ roles, name = bufferName partition (key.getD "") role :=
      fun role hrole hname => ⟨f.key?, f.key?_mem_keys, role, hrole, hname⟩
    have hlow : ∀ g ∈ f.contents, name ∈ g.bufferNames partition →
        ∃ key ∈ f.keys, ∃ role ∈ roles, name = bufferName partition (key.getD "") role := by
      intro g hg hname
      obtain ⟨key, hkey, hrole⟩ := ih g hg hname
      exact ⟨key, hkeys ▸ List.mem_cons_of_mem _ (hbelow g hg key hkey), hrole⟩
    have hall : ∀ fs, (∀ g ∈ fs, g ∈ f.contents) → name ∈ allBufferNames partition fs →
        ∃ key ∈ f.keys, ∃ role ∈ roles, name = bufferName partition (key.getD "") role := by
      intro fs hfs hname
      induction fs with
      | nil => cases hname
      | cons g gs ihgs =>
        obtain ⟨hg, hgs⟩ := List.forall_mem_cons.mp hfs
        rw [allBufferNames] at hname
        rcases List.mem_append.mp hname with hname | hname
        · exact hlow g hg hname
        · exact ihgs hgs hname
    cases f with
    | empty l => cases h
    | flat primitive l => exact hown "data" (by decide) (List.mem_singleton.mp h)
    | list width content l =>
      rw [bufferNames] at h
      rcases List.mem_cons.mp h with h | h
      · exact hown "offsets" (by decide) h
      · split at h
        · refine ⟨content.key?, ?_, "data", by decide, List.mem_singleton.mp h⟩
          rw [hkeys]
          exact List.mem_cons_of_mem _
            (hbelow content (List.mem_singleton_self _) _ content.key?_mem_keys)
        · exact hlow content (List.mem_singleton_self _) h
    | option width content l =>
      rw [bufferNames] at h
      rcases List.mem_cons.mp h with h | h
      · exact hown "index" (by decide) h
      · exact hlow content (List.mem_singleton_self _) h
    | record fs names l => exact hall fs (fun _ hg => hg) h
    | union tagWidth width fs l =>
      rw [bufferNames] at h
      rcases List.mem_cons.mp h with h | h
      · exact hown "tags" (by decide) h
      · rcases List.mem_cons.mp h with h | h
        · exact hown "index" (by decide) h
        · exact hall fs (fun _ hg => hg) h

end Form

/-- The keys of the nodes with a number of numbers from `first` on. -/
def nodeKeys (first count : Nat) : List (Option String) :=
  (List.range' first count).map fun n => some (nodeKey n)

theorem nodeKeys_succ (first count : Nat) :
    nodeKeys first (count + 1) = some (nodeKey first) :: nodeKeys (first + 1) count := by
  rw [nodeKeys, List.range'_succ, List.map_cons]
  rfl

theorem nodeKeys_add (first count more : Nat) :
    nodeKeys first (count + more) = nodeKeys first count ++ nodeKeys (first + count) more := by
  rw [nodeKeys, ← List.range'_append_1, List.map_append]
  rfl

/-! ### Layouts in all partitions -/

/-- A buffer by the key of its node and its role there. -/
structure Cell where
  /-- The key of the node. -/
  key : String
  /-- The role of the buffer. -/
  role : String
  /-- The buffer. -/
  buffer : Buffer

/-- Buffers with their names in a partition. -/
def Cell.named (partition : String) (cells : List Cell) : Buffers :=
  cells.map fun cell => (bufferName partition cell.key cell.role, cell.buffer)

theorem Cell.named_append (partition : String) (xs ys : List Cell) :
    named partition (xs ++ ys) = named partition xs ++ named partition ys :=
  List.map_append

/-- A form and cells, laid out in every partition with `count` nodes from the number `first`
on. -/
structure LaidOut (layout : String → Layout) (first : Nat) (form : Form) (cells : List Cell)
    (count : Nat) : Prop where
  /-- The layouts. -/
  eq : ∀ partition, layout partition = ⟨form, Cell.named partition cells, first + count⟩
  /-- No number is left out. -/
  keys : form.keys = nodeKeys first count
  /-- The buffers stand under the names by which they are looked up. -/
  names : ∀ partition, form.bufferNames partition = (Cell.named partition cells).map Prod.fst

/-- The same of several forms. -/
structure AllLaidOut (layouts : String → Layouts) (first : Nat) (forms : List Form)
    (cells : List Cell) (count : Nat) : Prop where
  /-- The layouts. -/
  eq : ∀ partition, layouts partition = ⟨forms, Cell.named partition cells, first + count⟩
  /-- No number is left out. -/
  keys : Form.allKeys forms = nodeKeys first count
  /-- The buffers stand under the names by which they are looked up. -/
  names : ∀ partition,
    Form.allBufferNames partition forms = (Cell.named partition cells).map Prod.fst

namespace Column

open Form (bufferNames keys nameOf)

theorem laidOut_flat (ps : Parameters) (next : Nat) (primitive : Primitive) (data : Buffer) :
    LaidOut (flatLayout · ps next primitive data) next
      (.flat primitive ⟨ps, some (nodeKey next)⟩) [⟨nodeKey next, "data", data⟩] 1 :=
  ⟨fun _ => rfl, rfl, fun _ => rfl⟩

theorem exists_allLaidOut {cs : List Column}
    (h : ∀ c ∈ cs, ∀ next, ∃ form cells count,
      LaidOut (fun partition => c.layout partition [] next) next form cells count) (next : Nat) :
    ∃ forms cells count,
      AllLaidOut (fun partition => layouts partition next cs) next forms cells count := by
  induction cs generalizing next with
  | nil => exact ⟨[], [], 0, fun _ => rfl, rfl, fun _ => rfl⟩
  | cons c cs ih =>
    obtain ⟨form, cells, count, hc⟩ := h c List.mem_cons_self next
    obtain ⟨forms, more, counts, hcs⟩ :=
      ih (fun d hd => h d (List.mem_cons_of_mem _ hd)) (next + count)
    refine ⟨form :: forms, cells ++ more, count + counts, ?_, ?_, ?_⟩
    · intro partition
      simp only [layouts, hc.eq partition, hcs.eq partition, Cell.named_append, Nat.add_assoc]
    · rw [Form.allKeys, hc.keys, hcs.keys, nodeKeys_add]
    · intro partition
      rw [Form.allBufferNames, hc.names, hcs.names, Cell.named_append, List.map_append]

/-- **A layout has its nodes numbered without gaps, and its buffers under the names by which they
are looked up**; the partition changes nothing but these names. -/
theorem exists_laidOut (c : Column) {ps : Parameters} (hps : lookup ps arrayParameter = none)
    (next : Nat) : ∃ form cells count,
      LaidOut (fun partition => c.layout partition ps next) next form cells count := by
  induction c using Column.induct generalizing ps next with
  | node c ih =>
    have hbelow : ∀ d ∈ c.children, ∀ next, ∃ form cells count,
        LaidOut (fun partition => d.layout partition [] next) next form cells count :=
      fun d hd next => ih d hd rfl next
    have hnext : ∀ count, next + 1 + count = next + (count + 1) := fun count => by omega
    cases c with
    | unknown n =>
      cases n with
      | zero => exact ⟨_, [], 1, fun _ => rfl, rfl, fun _ => rfl⟩
      | succ n => exact ⟨_, [⟨nodeKey next, "index", _⟩], 2, fun _ => rfl, rfl, fun _ => rfl⟩
    | bool | int64 | float64 | complex128 | time =>
      exact ⟨_, _, 1, laidOut_flat ps next _ _⟩
    | string encoding offsets data =>
      let chars : Form :=
        .flat .uint8 ⟨[(arrayParameter, .string encoding.itemName)], some (nodeKey (next + 1))⟩
      refine ⟨.list .i64 chars
          ⟨assign ps arrayParameter (.string encoding.arrayName), some (nodeKey next)⟩,
        [⟨nodeKey next, "offsets", sizesBuffer offsets⟩,
          ⟨nodeKey (next + 1), "data", .uint8 data⟩], 2, fun _ => rfl, rfl, fun partition => ?_⟩
      rw [bufferNames, Form.stringKind?_list, lookup_assign_self]
      simp only [Option.bind_some, Document.asString?, Encoding.ofArrayName?_arrayName]
      rfl
    | option index content =>
      obtain ⟨form, cells, count, h⟩ := hbelow content (List.mem_singleton_self _) (next + 1)
      let places : Buffer := .int64 ((index.take (length (.option index content))).map placeInt)
      refine ⟨.option .i64 form ⟨ps, some (nodeKey next)⟩,
        ⟨nodeKey next, "index", places⟩ :: cells, count + 1, fun partition => ?_, ?_,
        fun partition => ?_⟩
      · rw [layout]
        simp only [h.eq partition, Cell.named, List.map_cons, hnext]
        rfl
      · rw [keys, h.keys, nodeKeys_succ]
      · rw [bufferNames, h.names]
        rfl
    | list offsets content isOpen =>
      obtain ⟨form, cells, count, h⟩ := hbelow content (List.mem_singleton_self _) (next + 1)
      refine ⟨.list .i64 form ⟨ps, some (nodeKey next)⟩,
        ⟨nodeKey next, "offsets", sizesBuffer offsets⟩ :: cells, count + 1,
        fun partition => ?_, ?_, fun partition => ?_⟩
      · rw [layout]
        simp only [h.eq partition, Cell.named, List.map_cons, hnext]
      · rw [keys, h.keys, nodeKeys_succ]
      · rw [bufferNames, Form.stringKind?_list, hps]
        simp only [Option.bind_none, h.names]
        rfl
    | tuple slots n filling =>
      obtain ⟨forms, cells, count, h⟩ := exists_allLaidOut hbelow (next + 1)
      refine ⟨.record forms none ⟨ps, some (nodeKey next)⟩, cells, count + 1,
        fun partition => ?_, ?_, fun partition => ?_⟩
      · have heq := h.eq partition
        rw [children] at heq
        rw [layout, heq]
        simp only [hnext]
      · rw [keys, h.keys, nodeKeys_succ]
      · rw [bufferNames, h.names]
    | record name fields n filling settled declared =>
      obtain ⟨forms, cells, count, h⟩ := exists_allLaidOut hbelow (next + 1)
      refine ⟨.record forms (some (fields.map Prod.fst))
        ⟨recordParameters ps name, some (nodeKey next)⟩, cells, count + 1,
        fun partition => ?_, ?_, fun partition => ?_⟩
      · have heq := h.eq partition
        rw [children] at heq
        rw [layout, fieldLayouts_eq, heq]
        simp only [hnext]
      · rw [keys, h.keys, nodeKeys_succ]
      · rw [bufferNames, h.names]
    | union tags index children current =>
      obtain ⟨forms, cells, count, h⟩ := exists_allLaidOut hbelow (next + 1)
      let n := length (.union tags index children current)
      refine ⟨.union .i8 .i64 forms ⟨ps, some (nodeKey next)⟩,
        ⟨nodeKey next, "tags", .int8 ((tags.take n).map Int.ofNat)⟩
          :: ⟨nodeKey next, "index", sizesBuffer (index.take n)⟩ :: cells, count + 1,
        fun partition => ?_, ?_, fun partition => ?_⟩
      · have heq := h.eq partition
        rw [Column.children] at heq
        rw [layout, heq]
        simp only [Cell.named, List.map_cons, hnext]
        rfl
      · rw [keys, h.keys, nodeKeys_succ]
      · rw [bufferNames, h.names]
        rfl

end Column

end Columnar
