import Columnar.Proofs.Column.FieldSets
import Columnar.Proofs.Column.Reread

/-!
# How missing fields are read

Every column of a tree has its part in the layout of the tree: a node of the form, and buffers
among the buffers.  Missing elements at the start of a column are read as missing there, and so
is the field of a record if its column has missing elements.

## Main definitions

* `Form.IsNode`, `Layout.IsPart` — the nodes of a form, and the parts of a layout.
* `Form.field?`, `Form.Lacks` — the form of a field, and a field without values at the start.

## Main results

* `Column.exists_isPart` — every column below is laid out in a part of the layout.
* `Column.MissingField.lacks` — **a missing field is read as missing.**
-/

namespace Columnar

/-- The forms that are nodes of a form: itself, and the nodes of its contents. -/
inductive Form.IsNode : Form → Form → Prop
  /-- The root. -/
  | root (f : Form) : IsNode f f
  /-- A node of a content. -/
  | child {f g e : Form} (hg : g ∈ f.contents) (he : IsNode e g) : IsNode e f

/-- A layout is a part of another one: its form is a node there, and its buffers are among those
there. -/
structure Layout.IsPart (l l' : Layout) : Prop where
  /-- The form. -/
  form : l.form.IsNode l'.form
  /-- The buffers. -/
  buffers : l.buffers ⊆ l'.buffers

namespace Form

/-- The form of the field of records under a key. -/
def field? : Form → String → Option Form
  | .record contents (some keys) _, key => lookup (keys.zip contents) key
  | _, _ => none

/-- The field of a form under a key has no value in the first `n` records: its elements there are
missing, and the records that are read there have a missing element under the key. -/
structure Lacks (f : Form) (key : String) (n : Nat) (table : Buffers) (partition : String) :
    Prop where
  /-- The elements of the field. -/
  field : ∃ g, f.field? key = some g ∧ ∀ i < n, g.valueAt? table partition i = some .null
  /-- The records. -/
  records : ∀ m vs, f.toValues m table partition = .ok vs → ∀ i < n, ∀ v, vs[i]? = some v →
    ∃ name fields, v = .record name fields ∧ lookup fields key = some .null

variable {table : Buffers} {partition : String} {i : Nat}

/-- A negative place is that of a missing element. -/
theorem valueAt?_option_null {width : IndexWidth} {content : Form} {l : FormLabel} {key : String}
    {index : Array Int} (hkey : l.key? = some key)
    (hindex : lookup table (bufferName partition key "index") = some (.int64 index))
    (hi : index[i]? = some (-1)) :
    (Form.option width content l).valueAt? table partition i = some .null := by
  have hentry : (Form.option width content l).entryAt? table partition "index" .int64 i
      = some (-1) := by
    simp only [entryAt?, Form.key?, label, hkey, hindex, Elements.int64, Option.bind_eq_bind,
      Option.bind_some, hi]
  rw [valueAt?, hentry]
  rfl

/-- What a record has under a key is the element of the field. -/
theorem lookup_of_valueAt?_record {fs : List Form} {keys : List String} {l : FormLabel} {j : Nat}
    {key : String} {g : Form} {v : Value} (hnd : keys.Nodup) (hlen : fs.length = keys.length)
    (hkey : keys[j]? = some key) (hg : fs[j]? = some g)
    (h : (Form.record fs (some keys) l).valueAt? table partition i = some v) :
    ∃ name fields, v = .record name fields ∧ lookup fields key = g.valueAt? table partition i := by
  rw [valueAt?] at h
  obtain ⟨items, hrow, h⟩ := Option.bind_eq_some_iff.mp h
  obtain ⟨hitems, hvalue⟩ := List.forall₂_iff_get.mp (of_rowAt? hrow)
  obtain ⟨hj, rfl⟩ := List.getElem?_eq_some_iff.mp hg
  have hzip : ((keys.zip items).map Prod.fst).Nodup := by
    rwa [List.map_fst_zip (by omega)]
  refine ⟨_, _, (Option.some.inj h).symm, ?_⟩
  rw [← tableOf_eq_lastEntries, tableOf_of_nodup hzip, Column.lookup_zip hnd (by omega) hkey,
    List.getElem?_eq_getElem (hitems ▸ hj)]
  exact (hvalue j hj (hitems ▸ hj)).symm

/-- A field whose elements are missing is missing in the records. -/
theorem lacks_record {fs : List Form} {keys : List String} {l : FormLabel} {j n : Nat}
    {key : String} {g : Form} (hnd : keys.Nodup) (hlen : fs.length = keys.length)
    (hkey : keys[j]? = some key) (hg : fs[j]? = some g)
    (h : ∀ i < n, g.valueAt? table partition i = some .null) :
    (Form.record fs (some keys) l).Lacks key n table partition := by
  refine ⟨⟨g, ?_, h⟩, ?_⟩
  · rw [field?, Column.lookup_zip hnd hlen hkey, hg]
  · intro m vs hvs i hi v hv
    obtain ⟨hm, hvalues⟩ := toValues_shows hvs
    have hlt := (List.getElem?_eq_some_iff.mp hv).1
    rw [← hvalues i (hm ▸ hlt)] at hv
    obtain ⟨name, fields, rfl, hlookup⟩ := lookup_of_valueAt?_record hnd hlen hkey hg hv
    exact ⟨name, fields, rfl, hlookup.trans (h i hi)⟩

end Form

namespace Column

variable {partition : String} {table : Buffers} {c d : Column}

/-! ### Parts of a layout -/

/-- A column directly below is laid out in a part of the layout. -/
theorem exists_content (h : d ∈ c.children) (ps : Parameters) (next : Nat) :
    ∃ m, (d.layout partition [] m).form ∈ (c.layout partition ps next).form.contents ∧
      (d.layout partition [] m).buffers ⊆ (c.layout partition ps next).buffers := by
  have hall : ∀ {cs : List Column}, d ∈ cs →
      ∃ m, (d.layout partition [] m).form ∈ (layouts partition (next + 1) cs).forms ∧
        (d.layout partition [] m).buffers ⊆ (layouts partition (next + 1) cs).buffers := by
    intro cs hd
    obtain ⟨i, hi⟩ := List.mem_iff_getElem?.mp hd
    obtain ⟨m, hform, hbuffers⟩ := exists_layout partition (next + 1) hi
    exact ⟨m, List.mem_of_getElem? hform, hbuffers⟩
  cases c with
  | option index content =>
    cases List.mem_singleton.mp h
    exact ⟨next + 1, List.mem_singleton_self _, List.subset_cons_self _ _⟩
  | list offsets content isOpen =>
    cases List.mem_singleton.mp h
    exact ⟨next + 1, List.mem_singleton_self _, List.subset_cons_self _ _⟩
  | tuple slots n filling => exact hall h
  | record name fields n filling settled declared =>
    rw [layout, fieldLayouts_eq]
    exact hall h
  | union tags index children current =>
    obtain ⟨m, hform, hbuffers⟩ := hall h
    exact ⟨m, hform, List.subset_cons_of_subset _ (List.subset_cons_of_subset _ hbuffers)⟩
  | _ => cases h

/-- **Every column below is laid out in a part of the layout.** -/
theorem exists_isPart (partition : String) (h : IsNode d c) (ps : Parameters) (next : Nat) :
    ∃ ps' m, (d.layout partition ps' m).IsPart (c.layout partition ps next) := by
  induction h generalizing ps next with
  | root c => exact ⟨ps, next, .root _, List.Subset.refl _⟩
  | child hmem _ ih =>
    obtain ⟨m, hform, hbuffers⟩ := exists_content hmem ps next
    obtain ⟨ps', m', hpart⟩ := ih [] m
    exact ⟨ps', m', .child hform hpart.form, fun e he => hbuffers (hpart.buffers he)⟩

/-! ### Missing elements -/

/-- A missing element is complete. -/
theorem OptionSound.lt_length {index : Array (Option Nat)} {content : Column} {i : Nat}
    (hs : OptionSound index content) (hi : index[i]? = some none) :
    i < (option index content).length := by
  obtain ⟨hlt, -⟩ := Array.getElem?_eq_some_iff.mp hi
  cases ha : content.isActive with
  | false => simpa [length, ha] using hlt
  | true =>
    -- the last place is that of the open element
    have hlast := hs.last ha
    rw [Array.back?] at hlast
    have hne : i ≠ index.size - 1 := by
      rintro rfl
      rw [hi] at hlast
      cases hlast
    simp only [length, ha, Bool.toNat_true]
    omega

/-- Missing elements are read as missing. -/
theorem Missing.valueAt? {n i : Nat} (hm : c.Missing n) (hs : c.Sound) (hi : i < n)
    {ps : Parameters} {next : Nat} (hstored : Stored table (c.layout partition ps next).buffers) :
    (c.layout partition ps next).form.valueAt? table partition i = some .null := by
  have hn : n ≠ 0 := by omega
  cases c with
  | unknown m =>
    cases m with
    | zero => exact absurd (Nat.le_zero.mp hm) hn
    | succ m =>
      have hle : n ≤ m + 1 := hm
      have hplace : (Array.replicate (m + 1) (-1 : Int))[i]? = some (-1) := by
        rw [Array.getElem?_replicate, if_pos (by omega)]
      exact Form.valueAt?_option_null rfl (hstored _ List.mem_cons_self) hplace
  | option index content =>
    have hget : index[i]? = some none := hm i hi
    have hlen := OptionSound.lt_length hs.node hget
    have hplace : ((index.take (option index content).length).map placeInt)[i]? = some (-1) := by
      rw [Array.getElem?_map, ← Array.getElem?_toList, toList_take,
        List.getElem?_take_of_lt hlen, Array.getElem?_toList, hget]
      rfl
    exact Form.valueAt?_option_null rfl (hstored _ List.mem_cons_self) hplace
  | _ => exact absurd hm hn

/-- **A missing field is read as missing.** -/
theorem MissingField.lacks {name : Option String} {key : String} {n : Nat}
    (hm : c.MissingField name key n) (hs : c.Sound) (ps : Parameters) (next : Nat)
    (hstored : Stored table (c.layout partition ps next).buffers) :
    (c.layout partition ps next).form.Lacks key n table partition := by
  obtain ⟨d, hd, hmissing⟩ := hm
  cases c with
  | record name' fields m filling settled declared =>
    obtain ⟨j, hj, hget⟩ := Option.bind_eq_some_iff.mp hd
    have hdsound := hs.children d (List.mem_of_getElem? hget)
    obtain ⟨m, hform, hbuffers⟩ := exists_layout partition (next + 1) hget
    rw [layout, fieldLayouts_eq] at hstored ⊢
    refine Form.lacks_record hs.node.2 ?_ (fieldIndex?_eq_some hj) hform fun i hi => ?_
    · rw [length_layouts, columnsOf_length, List.length_map]
    · exact hmissing.valueAt? hdsound hi fun e he => hstored e (hbuffers he)
  | _ => cases hd

end Column

end Columnar
