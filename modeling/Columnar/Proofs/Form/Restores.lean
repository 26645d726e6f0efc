import Columnar.Proofs.Column.Reread
import Columnar.Proofs.Form.Labels

/-!
# Values as their form restores them

What is read back has the shape that the form gives it: a number is as wide as the buffer it comes
from, and a record has the keys of its form, in the order of the form, each with the value that
the record was given under it, or with none.  So the records of one column show the same keys in
the same order, whatever order their fields came in.

## Main definitions

* `Primitive.Restores` — a flat buffer restores a value as another one.
* `Form.Restores` — a form restores a value as another one.
* `Form.Keyed` — the records of a form have a key for every content, and none twice.

## Main results

* `Column.keyed_layout` — the form of a sound column is keyed.
* `Form.restores_of_reads` — **what is read back, and described by a keyed form, is what the form
  restores.**
-/

namespace Columnar

open List (Forall₂)

/-- A flat buffer restores a value: as it is, or as a wider number. -/
inductive Primitive.Restores : Primitive → Value → Value → Prop
  /-- The value itself. -/
  | same {primitive : Primitive} {v : Value} (h : primitive.Holds v) : Restores primitive v v
  /-- An integer as the nearest real. -/
  | int_real (n : Int64) : Restores .float64 (.int n) (.real (.ofInt n.toInt))
  /-- An integer as the nearest real, without an imaginary part. -/
  | int_complex (n : Int64) :
      Restores .complex128 (.int n) (.complex (.ofReal (.ofInt n.toInt)))
  /-- A real without an imaginary part. -/
  | real_complex (x : Binary64) : Restores .complex128 (.real x) (.complex (.ofReal x))

namespace Form

/-- A form restores a value as another one. -/
inductive Restores : Form → Value → Value → Prop
  /-- Elements of a flat buffer. -/
  | flat {primitive : Primitive} {l : FormLabel} {v w : Value} (h : primitive.Restores v w) :
      Restores (.flat primitive l) v w
  /-- Strings, as they are. -/
  | string {width : IndexWidth} {content : Form} {l : FormLabel} {encoding : Encoding}
      {v : Value} (hkind : (Form.list width content l).stringKind? = some encoding)
      (hv : v.class? = some (.string encoding)) : Restores (.list width content l) v v
  /-- Lists, item by item. -/
  | list {width : IndexWidth} {content : Form} {l : FormLabel} {items out : List Value}
      (hkind : (Form.list width content l).stringKind? = none)
      (hlen : items.length = out.length)
      (h : ∀ (i : Nat) (v w : Value), items[i]? = some v → out[i]? = some w →
        Restores content v w) : Restores (.list width content l) (.list items) (.list out)
  /-- Missing values. -/
  | null {width : IndexWidth} {content : Form} {l : FormLabel} :
      Restores (.option width content l) .null .null
  /-- Present values. -/
  | present {width : IndexWidth} {content : Form} {l : FormLabel} {v w : Value}
      (h : Restores content v w) : Restores (.option width content l) v w
  /-- Tuples, slot by slot. -/
  | tuple {contents : List Form} {l : FormLabel} {items out : List Value}
      (hitems : items.length = contents.length) (hout : out.length = contents.length)
      (h : ∀ (i : Nat) (f : Form) (v w : Value), contents[i]? = some f → items[i]? = some v →
        out[i]? = some w → Restores f v w) :
      Restores (.record contents none l) (.tuple items) (.tuple out)
  /-- Records, key by key in the order of the form: what is read under a key is what the record
  was given under it, and it is missing if the record was given nothing. -/
  | record {contents : List Form} {keys : List String} {l : FormLabel}
      {fields out : List (String × Value)} (hkeys : out.map Prod.fst = keys)
      (hcontents : keys.length = contents.length) (hnodup : keys.Nodup)
      (hfields : (fields.map Prod.fst).Nodup) (hgiven : fields.map Prod.fst ⊆ keys)
      (h : ∀ (i : Nat) (f : Form) (key : String) (v w : Value), contents[i]? = some f →
        out[i]? = some (key, w) → lookup fields key = some v → Restores f v w)
      (hmissing : ∀ key w, (key, w) ∈ out → lookup fields key = none → w = .null) :
      Restores (.record contents (some keys) l)
        (.record ((lookup l.parameters recordParameter).bind Document.asString?) fields)
        (.record ((lookup l.parameters recordParameter).bind Document.asString?) out)
  /-- Values of several kinds. -/
  | union {tagWidth width : IndexWidth} {contents : List Form} {l : FormLabel} {f : Form}
      {v w : Value} (hf : f ∈ contents) (h : Restores f v w) :
      Restores (.union tagWidth width contents l) v w

/-- The keys of records, if the node is one of records. -/
def recordKeys? : Form → Option (List String)
  | .record _ keys _ => keys
  | _ => none

/-- At every node of records there is a key for every content, and no key stands twice. -/
inductive Keyed : Form → Prop
  /-- The keys of the root, and of the nodes below it. -/
  | intro {f : Form}
      (node : ∀ keys, f.recordKeys? = some keys → keys.length = f.contents.length ∧ keys.Nodup)
      (below : ∀ g ∈ f.contents, Keyed g) : Keyed f

namespace Keyed

variable {f : Form}

theorem node : f.Keyed → ∀ keys, f.recordKeys? = some keys →
    keys.length = f.contents.length ∧ keys.Nodup
  | .intro h _ => h

theorem contents : f.Keyed → ∀ g ∈ f.contents, g.Keyed
  | .intro _ h => h

/-- A form with nothing below it that is none of records. -/
theorem leaf (hkeys : f.recordKeys? = none) (hcontents : f.contents = []) : f.Keyed := by
  refine .intro (fun keys h => ?_) fun g hg => ?_
  · rw [hkeys] at h
    cases h
  · rw [hcontents] at hg
    cases hg

end Keyed

end Form

/-! ### What may have been read back as a value -/

/-- Members at one place of two lists are related. -/
theorem rel_of_getElem? {α β : Type} {R : α → β → Prop} {xs : List α} {ys : List β} {i : Nat}
    {x : α} {y : β} (h : Forall₂ R xs ys) (hx : xs[i]? = some x) (hy : ys[i]? = some y) :
    R x y := by
  obtain ⟨hi, rfl⟩ := List.getElem?_eq_some_iff.mp hx
  obtain ⟨hi', rfl⟩ := List.getElem?_eq_some_iff.mp hy
  exact h.get hi hi'

namespace Reads

variable {v : Value}

theorem exists_list {out : List Value} (h : Reads v (.list out)) :
    ∃ items, v = .list items ∧ Forall₂ Reads items out := by
  cases h with
  | same => exact ⟨out, rfl, reads_self out⟩
  | list h => exact ⟨_, rfl, h⟩

theorem exists_tuple {out : List Value} (h : Reads v (.tuple out)) :
    ∃ items, v = .tuple items ∧ Forall₂ Reads items out := by
  cases h with
  | same => exact ⟨out, rfl, reads_self out⟩
  | tuple h => exact ⟨_, rfl, h⟩

theorem exists_record {name : Option String} {out : List (String × Value)}
    (h : Reads v (.record name out)) (hout : (out.map Prod.fst).Nodup) :
    ∃ fields, v = .record name fields ∧ (fields.map Prod.fst).Nodup ∧
      fields.map Prod.fst ⊆ out.map Prod.fst ∧
      (∀ key v w, lookup fields key = some v → (key, w) ∈ out → Reads v w) ∧
      ∀ key w, (key, w) ∈ out → lookup fields key = none → w = .null := by
  cases h with
  | same =>
    refine ⟨out, rfl, hout, List.Subset.refl _, fun key v w hv hw => ?_, fun key w hw hnone => ?_⟩
    · obtain rfl : w = v := Option.some.inj ((lookup_of_mem hout hw).symm.trans hv)
      exact .same w
    · rw [lookup_of_mem hout hw] at hnone
      cases hnone
  | record hfields _ hkeys hread hextra =>
    refine ⟨_, rfl, hfields, hkeys, fun key v w hv hw => ?_, fun key w hw hnone => ?_⟩
    · exact hread key v w (mem_of_lookup hv) hw
    · exact hextra key w hw (lookup_eq_none_iff.mp hnone)

end Reads

/-- What an element of a flat buffer may have been. -/
theorem Primitive.restores_of_reads {primitive : Primitive} {v w : Value} (h : Reads v w)
    (hw : primitive.Holds w) : primitive.Restores v w := by
  cases hw with
  | bool b => cases h; exact .same (.bool b)
  | uint8 n => cases h; exact .same (.uint8 n)
  | int64 n => cases h; exact .same (.int64 n)
  | float64 x =>
    cases h with
    | same => exact .same (.float64 x)
    | int_real n => exact .int_real n
  | complex128 z =>
    cases h with
    | same => exact .same (.complex128 z)
    | int_complex n => exact .int_complex n
    | real_complex x => exact .real_complex x
  | @time kind unit w n hw =>
    subst hw
    cases kind <;>
      · cases h
        exact .same (.time n rfl)

namespace Form

/-- **What is read back, and described by a keyed form, is what the form restores.** -/
theorem restores_of_reads {f : Form} (hf : f.Keyed) {v w : Value} (h : Reads v w)
    (hw : f.Describes w) : f.Restores v w := by
  induction hw generalizing v with
  | flat hw => exact .flat (Primitive.restores_of_reads h hw)
  | @string _ _ _ encoding w hkind hw =>
    have hv : v.class? = some (.string encoding) := h.class?_eq.symm.trans hw
    rw [reads_string hv h]
    exact .string hkind hv
  | list hkind _ ih =>
    obtain ⟨items, rfl, hitems⟩ := h.exists_list
    refine .list hkind hitems.length_eq fun i v w hv hw => ?_
    exact ih w (List.mem_of_getElem? hw) (hf.contents _ (List.mem_singleton_self _))
      (rel_of_getElem? hitems hv hw)
  | null =>
    cases h
    exact .null
  | present _ ih => exact .present (ih (hf.contents _ (List.mem_singleton_self _)) h)
  | tuple hlen _ ih =>
    obtain ⟨items, rfl, hitems⟩ := h.exists_tuple
    refine .tuple (hitems.length_eq.trans hlen) hlen fun i g v w hg hv hw => ?_
    exact ih i g w hg hw (hf.contents g (List.mem_of_getElem? hg)) (rel_of_getElem? hitems hv hw)
  | @record contents keys l items hlen _ ih =>
    obtain ⟨hkeys, hnodup⟩ := hf.node keys rfl
    -- no key stands twice, so the record is read as its keys and values, paired up
    have hzip : (keys.zip items).map Prod.fst = keys :=
      List.map_fst_zip (Nat.le_of_eq (hkeys.trans hlen.symm))
    have hout : ((keys.zip items).map Prod.fst).Nodup := by rwa [hzip]
    rw [← tableOf_eq_lastEntries, tableOf_of_nodup hout] at h ⊢
    obtain ⟨fields, rfl, hfields, hgiven, hread, hmissing⟩ := h.exists_record hout
    rw [hzip] at hgiven
    refine .record hzip hkeys hnodup hfields hgiven (fun i g key v w hg hw hv => ?_) hmissing
    have hitem := (List.getElem?_zip_eq_some.mp hw).2
    exact ih i g w hg hitem (hf.contents g (List.mem_of_getElem? hg))
      (hread key v w hv (List.mem_of_getElem? hw))
  | union hmem _ ih => exact .union hmem (ih (hf.contents _ hmem) h)

end Form

/-! ### The forms of layouts -/

namespace Column

variable {partition : String}

/-- The form of a sound column is keyed. -/
theorem keyed_layout {c : Column} (hc : c.Sound) (ps : Parameters) (next : Nat) :
    (c.layout partition ps next).form.Keyed := by
  induction c using Column.induct generalizing ps next with
  | node c ih =>
    refine .intro (fun keys hkeys => ?_) fun g hg => ?_
    · cases c with
      | unknown n => cases n <;> cases hkeys
      | record name fields n filling settled declared =>
        rw [layout, fieldLayouts_eq] at hkeys ⊢
        obtain ⟨⟩ := hkeys
        refine ⟨?_, hc.node.2⟩
        rw [Form.contents, length_layouts, columnsOf_length, List.length_map]
      | _ => cases hkeys
    · rcases exists_of_mem_contents hg with ⟨d, hd, n, rfl⟩ | ⟨key?, rfl | ⟨encoding, rfl⟩⟩
      · exact ih d hd (hc.children d hd) [] n
      · exact .leaf rfl rfl
      · exact .leaf rfl rfl

end Column

end Columnar
