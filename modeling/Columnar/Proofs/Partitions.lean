import Columnar.Proofs.Column.Keys
import Columnar.Proofs.Column.Legible
import Columnar.Proofs.Form.Stable
import Columnar.Proofs.Snapshot

/-!
# Partitions of one table

The buffers of several arrays are kept in one table by laying each array out in a partition of
its own.  A name begins with the partition, and what stands behind it holds two dashes,
whatever the partition is called; so no name is that of another partition, and each array is
read back as if the other one were not there.

## Main definitions

* `Builder.Readable` — a builder of which a snapshot can be read.

## Main results

* `bufferName_partition_inj` — a name tells the partition.
* `Builder.Readable.toValues_of_stored` — wherever its buffers are stored, an array is read as its
  snapshot.
* `Builder.bufferNames_spec` — **names are distinct, are those that are looked up, none can
  be missed, and those of two partitions do not meet.**
-/

namespace Columnar

/-! ### Names -/

theorem dash_not_mem_nodeKey (n : Nat) : '-' ∉ (nodeKey n).toList := by
  rw [nodeKey, String.toList_append, Nat.toString_eq_repr, Nat.toList_repr, List.mem_append, not_or]
  exact ⟨by decide, dash_not_mem_toDigits n⟩

/-- From its end on, a name has the role, a dash, the key, a dash, and then the partition. -/
theorem reverse_bufferName (partition key role : String) :
    (bufferName partition key role).toList.reverse = role.toList.reverse ++ '-' ::
      (key.toList.reverse ++ '-' :: (partition.toList.reverse ++ "part".toList.reverse)) := by
  simp [bufferName]

/-- A name tells the partition, whatever dashes the partition has. -/
theorem bufferName_partition_inj {p q role role' : String} {a b : Nat}
    (hrole : '-' ∉ role.toList) (hrole' : '-' ∉ role'.toList)
    (h : bufferName p (nodeKey a) role = bufferName q (nodeKey b) role') : p = q := by
  have hlist := congrArg (fun s : String => s.toList.reverse) h
  simp only [reverse_bufferName] at hlist
  have hdash : ∀ {s : String}, '-' ∉ s.toList → '-' ∉ s.toList.reverse := fun hs hmem =>
    hs (List.mem_reverse.mp hmem)
  obtain ⟨-, hrest⟩ := append_dash_inj (hdash hrole) (hdash hrole') hlist
  obtain ⟨-, hpartition⟩ :=
    append_dash_inj (hdash (dash_not_mem_nodeKey a)) (hdash (dash_not_mem_nodeKey b)) hrest
  exact String.toList_inj.mp (List.reverse_inj.mp (List.append_cancel_right hpartition))

/-! ### Tables that are written several times -/

theorem Buffers.lookup_store_of_not_mem {table more : Buffers} {name : String}
    (h : name ∉ more.map Prod.fst) : lookup (table.store more) name = lookup table name := by
  induction more generalizing table with
  | nil => rfl
  | cons e more ih =>
    rw [List.map_cons, List.mem_cons, not_or] at h
    change lookup (store (assign table e.1 e.2) more) name = _
    rw [ih h.2, lookup_assign, if_neg (Ne.symm h.1)]

/-- What has been written is found, as no name was written twice. -/
theorem stored_store (table : Buffers) {more : Buffers} (h : (more.map Prod.fst).Nodup) :
    Stored (table.store more) more := by
  induction more generalizing table with
  | nil => nofun
  | cons e more ih =>
    rw [List.map_cons, List.nodup_cons] at h
    refine List.forall_mem_cons.mpr ⟨?_, ih (assign table e.1 e.2) h.2⟩
    change lookup (Buffers.store (assign table e.1 e.2) more) e.1 = _
    rw [Buffers.lookup_store_of_not_mem h.1, lookup_assign_self]

/-- What had been written before is still found, as nothing was written over it. -/
theorem Stored.store {table xs more : Buffers} (h : Stored table xs)
    (hne : ∀ e ∈ xs, e.1 ∉ more.map Prod.fst) : Stored (table.store more) xs := by
  intro e he
  rw [Buffers.lookup_store_of_not_mem (hne e he)]
  exact h e he

/-- Cells that are stored in a partition are those of any other partition. -/
theorem continues_named {table : Buffers} {partition : String} {cells : List Cell}
    (h : Stored table (Cell.named partition cells)) (other : String) :
    (Buffers.Continues (Cell.named other cells) other table partition) := by
  intro key role b hb
  obtain ⟨cell, hcell, heq⟩ := List.mem_map.mp (mem_of_lookup hb)
  obtain ⟨hname, rfl⟩ := Prod.mk.inj heq
  have hsame : bufferName partition cell.key cell.role = bufferName partition key role := by
    have hlist := congrArg String.toList hname
    simp only [bufferName, String.toList_append, List.append_assoc,
      List.append_cancel_left_eq] at hlist
    apply String.toList_inj.mp
    simp only [bufferName, String.toList_append, List.append_assoc, hlist]
  refine ⟨cell.buffer, ?_, .refl _⟩
  rw [← hsame]
  exact h _ (List.mem_map_of_mem hcell)

namespace Builder

/-- A builder of which a snapshot can be read: calls come to it, and there is memory for a value
of each of them, its text is valid, and nobody annotates it as strings or names it as records. -/
structure Readable (b : Builder) : Prop where
  /-- The calls. -/
  exists_run : ∃ o calls, b = (new o).run calls ∧ calls.length ≤ maxValues
  /-- The text. -/
  legible : b.root.Legible
  /-- The annotations. -/
  plain : Plain b.parameters

namespace Readable

variable {b b' : Builder} {partition partition' : String} {table : Buffers}

theorem exists_snapshot (h : b.Readable) :
    ∃ vals, b.snapshot = .ok vals ∧ vals.length = b.length := by
  obtain ⟨o, calls, rfl, hlen⟩ := h.exists_run
  obtain ⟨s, hs⟩ := exists_holds_run o calls h.legible
  obtain ⟨vals, hvals, hlength, -⟩ := hs.snapshot h.plain (bounded_run o calls) hlen
  exact ⟨vals, hvals, hlength⟩

/-- **Wherever its buffers are stored, an array is read as its snapshot.** -/
theorem toValues_of_stored (h : b.Readable)
    (hst : Stored table (b.layout partition).buffers) {vals : List Value}
    (hvals : b.snapshot = .ok vals) :
    (b.layout partition).form.toValues b.length table partition = .ok vals := by
  obtain ⟨form, cells, count, hlaid⟩ := b.root.exists_laidOut h.plain.array 0
  have hlayout : ∀ p, b.layout p = ⟨form, Cell.named p cells, 0 + count⟩ := hlaid.eq
  obtain ⟨vals', hvals', hlength⟩ := h.exists_snapshot
  cases hvals.symm.trans hvals'
  rw [snapshot, hlayout] at hvals
  rw [hlayout] at hst ⊢
  have hread := Form.toValues_of_continues (continues_named hst defaultPartition)
    (Nat.le_refl b.length) hvals
  rw [← hlength, List.take_length, hlength] at hread
  exact hread

/-- Every name is made of the number of a node and of a role. -/
theorem exists_name (h : b.Readable) {name : String}
    (hname : name ∈ (b.layout partition).buffers.map Prod.fst) :
    ∃ n, ∃ role ∈ Form.roles, name = bufferName partition (nodeKey n) role := by
  obtain ⟨form, cells, count, hlaid⟩ := b.root.exists_laidOut h.plain.array 0
  have hlayout : b.layout partition = ⟨form, Cell.named partition cells, 0 + count⟩ :=
    hlaid.eq partition
  rw [hlayout] at hname
  rw [← hlaid.names partition] at hname
  obtain ⟨key, hkey, role, hrole, rfl⟩ := form.mem_bufferNames hname
  rw [hlaid.keys] at hkey
  obtain ⟨n, -, rfl⟩ := List.mem_map.mp hkey
  exact ⟨n, role, hrole, rfl⟩

/-- The names of two partitions do not meet. -/
theorem names_disjoint (h : b.Readable) (h' : b'.Readable) (hne : partition ≠ partition')
    {e : String × Buffer} (he : e ∈ (b.layout partition).buffers) :
    e.1 ∉ (b'.layout partition').buffers.map Prod.fst := by
  intro hmem
  obtain ⟨n, role, hrole, hname⟩ := h.exists_name (List.mem_map_of_mem he)
  obtain ⟨n', role', hrole', hname'⟩ := h'.exists_name hmem
  have hdash : ∀ role ∈ Form.roles, '-' ∉ role.toList := by decide
  exact hne (bufferName_partition_inj (hdash role hrole) (hdash role' hrole')
    (hname.symm.trans hname'))

/-- The numbers of the nodes are 0, 1, 2, … from the root down. -/
theorem keys_eq (h : b.Readable) : (b.layout partition).form.keys
    = (List.range (b.layout partition).form.keys.length).map (fun n => some (nodeKey n)) := by
  obtain ⟨form, cells, count, hlaid⟩ := b.root.exists_laidOut h.plain.array 0
  have hform : (b.layout partition).form = form := congrArg Layout.form (hlaid.eq partition)
  rw [hform, hlaid.keys, nodeKeys, List.length_map, List.length_range', ← List.range_eq_range']

/-- The names that are looked up are those under which the buffers are stored. -/
theorem lookups_eq (h : b.Readable) (hst : Stored table (b.layout partition).buffers) :
    (b.layout partition).form.lookups b.length table partition
      = (b.layout partition).buffers.map Prod.fst := by
  obtain ⟨vals, hvals, -⟩ := h.exists_snapshot
  obtain ⟨form, cells, count, hlaid⟩ := b.root.exists_laidOut h.plain.array 0
  have hlayout : b.layout partition = ⟨form, Cell.named partition cells, 0 + count⟩ :=
    hlaid.eq partition
  have hnames := hlaid.names partition
  rw [Form.lookups_eq (h.toValues_of_stored hst hvals)]
  rw [hlayout]
  exact hnames

end Readable

/-- **Names of buffers.**  The keys of the nodes, from the root down, are those of the numbers
0, 1, 2, … without gaps.  The names of the buffers are all different, and they are the names
that are looked up when the array is read; whichever of them is taken away, reading ends with
the error that names it.  And if two builders are laid out in one table, in partitions of
different names, then each is read back as its own snapshot, whichever was written first. -/
theorem bufferNames_spec (b : Builder) (hb : b.Readable) (partition : String) :
    let form := (b.layout partition).form
    let names := (b.layout partition).buffers.map Prod.fst
    form.keys = (List.range form.keys.length).map (fun n => some (nodeKey n)) ∧
    names.Nodup ∧
    (∀ table, let written := (b.toBuffers partition table).2
      form.lookups b.length written partition = names ∧
      ∀ name ∈ names, ∃ key, form.toValues b.length (written.without name) partition
        = .error (.error ⟨some key, .missingBuffer name⟩)) ∧
    ∀ b' : Builder, b'.Readable → ∀ partition', partition ≠ partition' → ∀ table,
      let form' := (b'.layout partition').form
      let after := (b'.toBuffers partition' (b.toBuffers partition table).2).2
      let before := (b.toBuffers partition (b'.toBuffers partition' table).2).2
      ∃ vals vals', b.snapshot = .ok vals ∧ b'.snapshot = .ok vals' ∧
        ∀ shared ∈ [after, before], form.toValues b.length shared partition = .ok vals ∧
          form'.toValues b'.length shared partition' = .ok vals' := by
  intro form names
  have hnodup : ∀ b : Builder, ∀ p, ((b.layout p).buffers.map Prod.fst).Nodup :=
    fun b p => (b.root.numbered_layout b.parameters 0).nodup
  refine ⟨hb.keys_eq, hnodup b partition, ?_, ?_⟩
  · intro table written
    have hlookups := hb.lookups_eq (stored_store table (hnodup b partition))
    exact ⟨hlookups, fun name hname => Form.toValues_without (hlookups ▸ hname)⟩
  · intro b' hb' partition' hne table form' after before
    obtain ⟨vals, hvals, -⟩ := hb.exists_snapshot
    obtain ⟨vals', hvals', -⟩ := hb'.exists_snapshot
    refine ⟨vals, vals', hvals, hvals', ?_⟩
    have hfirst := stored_store table (hnodup b partition)
    have hfirst' := stored_store table (hnodup b' partition')
    -- the one that was written last is stored in any case, and the other one is not written over
    refine List.forall_mem_cons.mpr ⟨⟨?_, ?_⟩, List.forall_mem_singleton.mpr ⟨?_, ?_⟩⟩
    · exact hb.toValues_of_stored (hfirst.store fun _ he => hb.names_disjoint hb' hne he) hvals
    · exact hb'.toValues_of_stored (stored_store _ (hnodup b' partition')) hvals'
    · exact hb.toValues_of_stored (stored_store _ (hnodup b partition)) hvals
    · exact hb'.toValues_of_stored
        (hfirst'.store fun _ he => hb'.names_disjoint hb (Ne.symm hne) he) hvals'

/-- A list of bytes that are no text is cleared away; then come a list with a text, and a missing
list. -/
def clearedTextCalls : List Request :=
  [.push .beginList, .push (.string .utf8 [0xff]), .push .endList, .push .null, .clear,
    .push .beginList, .push (.text "a"), .push .endList, .push .null]

/-- The name of one of the partitions is that of the other one with a key behind it. -/
theorem bufferNames_spec_nodePartition :
    let b := (new {}).run clearedTextCalls
    let b' := (new {}).run [.push (.int 5)]
    let shared := (b'.toBuffers "1-node1" (b.toBuffers "1" []).2).2
    b.Readable ∧ b'.Readable ∧ "1" ≠ "1-node1" ∧
      ∃ vals vals', b.snapshot = .ok vals ∧ b'.snapshot = .ok vals' ∧
        (b.layout "1").form.toValues b.length shared "1" = .ok vals ∧
        (b'.layout "1-node1").form.toValues b'.length shared "1-node1" = .ok vals' := by
  intro b b' shared
  have hstring : ∀ i bytes, Column.stringAt? #[0, 1] #[97] i = some bytes →
      ∃ s, bytes = Utf8.encodeString s := by
    intro i bytes h
    cases i with
    | zero =>
      have hbytes : [97] = bytes := Option.some.inj h
      exact ⟨"a", hbytes.symm⟩
    | succ i =>
      simp [Column.stringAt?] at h
  have hlegible : (Column.option #[some 0, none]
      (.list #[0, 1] (.string .utf8 #[0, 1] #[97]) false)).Legible :=
    .intro trivial (List.forall_mem_singleton.mpr
      (.intro trivial (List.forall_mem_singleton.mpr (.intro hstring (List.forall_mem_nil _)))))
  have hb : b.Readable :=
    ⟨⟨{}, clearedTextCalls, rfl, by decide⟩, hlegible, plain_nil⟩
  have hb' : b'.Readable :=
    ⟨⟨{}, [.push (.int 5)], rfl, by decide⟩, .intro trivial (List.forall_mem_nil _), plain_nil⟩
  have hne : "1" ≠ "1-node1" := by decide
  obtain ⟨vals, vals', hvals, hvals', hshared⟩ :=
    (bufferNames_spec b hb "1").2.2.2 b' hb' "1-node1" hne []
  exact ⟨hb, hb', hne, vals, vals', hvals, hvals', hshared shared List.mem_cons_self⟩

end Builder

end Columnar
