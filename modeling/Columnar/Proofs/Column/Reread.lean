import Columnar.Proofs.Column.Yields
import Columnar.Proofs.Form.Describes

/-!
# Values that are read back fit their column

What is read back of a column differs from what was put in: numbers are as wide as the column,
and records have all its fields, in its order.  The column holds what is read back just as it
holds what was put in, and it is no wider than that asks for.

## Main results

* `Reads.class?_eq`, `Reads.items`, `Reads.slot?`, `Reads.field?` — the parts of a value that is
  read back.
* `Column.Fits.reread` — **a column holds the values that are read back of it.**
-/

namespace List

variable {α : Type*} [BEq α] [LawfulBEq α]

/-- Members that stand in a list already leave nothing of a list behind it. -/
theorem eraseDups_append_of_subset {l m : List α} (h : m ⊆ l) :
    (l ++ m).eraseDups = l.eraseDups := by
  have hnone : m.removeAll l = [] := by
    rw [removeAll, filter_eq_nil_iff]
    intro a ha
    simpa using h ha
  rw [eraseDups_append, hnone, eraseDups_nil, append_nil]

/-- Repeats may be erased twice. -/
theorem eraseDups_append_eraseDups (l m : List α) :
    (l ++ (l ++ m).eraseDups).eraseDups = (l ++ m).eraseDups := by
  induction m using List.reverseRecOn with
  | nil =>
    rw [append_nil, eraseDups_append_of_subset fun a ha => mem_eraseDups.mp ha]
  | append_singleton m a ih =>
    rw [← append_assoc, eraseDups_concat]
    split
    · exact ih
    · next h =>
      have hnew : a ∉ l ++ (l ++ m).eraseDups := by
        rw [mem_append, mem_eraseDups]
        exact fun hmem => h (hmem.elim (mem_append_left _) id)
      rw [← append_assoc, eraseDups_concat, if_neg hnew, ih]

end List

namespace Columnar

open List (Forall₂)

/-! ### Parts of what is read back -/

namespace Reads

variable {v w : Value}

theorem class?_eq (h : Reads v w) : w.class? = v.class? := by
  cases h with
  | tuple h => rw [Value.class?, Value.class?, h.length_eq]
  | _ => rfl

theorem items (h : Reads v w) : Forall₂ Reads v.items w.items := by
  cases h with
  | same => exact reads_self _
  | list h => exact h
  | _ => exact .nil

theorem slot? (h : Reads v w) (i : Nat) : Option.Rel Reads (v.slot? i) (w.slot? i) := by
  cases h with
  | same =>
    cases v.slot? i with
    | none => exact .none
    | some u => exact .some (.same u)
  | tuple h => exact .some (Form.reads_getD h i)
  | _ => exact .none

theorem field? (h : Reads v w) (key : String) :
    Option.Rel Reads (v.field? key) (w.field? key) := by
  cases h with
  | same =>
    cases v.field? key with
    | none => exact .none
    | some u => exact .some (.same u)
  | record hfields hout hkeys hread hextra =>
    refine .some ?_
    rename_i name fields out
    cases hv : lookup fields key with
    | none =>
      cases hw : lookup out key with
      | none => exact .same _
      | some w =>
        rw [hextra key w (mem_of_lookup hw) (lookup_eq_none_iff.mp hv)]
        exact .same _
    | some v =>
      have hmem := hkeys key (List.mem_map_of_mem (mem_of_lookup hv))
      obtain ⟨⟨_, w⟩, hw, rfl⟩ := List.mem_map.mp hmem
      rw [lookup_of_mem hout hw]
      exact hread _ v w (mem_of_lookup hv) hw
  | _ => exact .none

end Reads

variable {vs out : List Value}

theorem map_class?_of_reads (h : Forall₂ Reads vs out) :
    out.map Value.class? = vs.map Value.class? := by
  induction h with
  | nil => rfl
  | cons hv _ ih => rw [List.map_cons, List.map_cons, hv.class?_eq, ih]

theorem reads_present (h : Forall₂ Reads vs out) :
    Forall₂ Reads (Value.present vs) (Value.present out) :=
  List.rel_filter (fun _ _ hv => by simp only [hv.class?_eq]) h

theorem reads_ofClass (k : Option ElementClass) (h : Forall₂ Reads vs out) :
    Forall₂ Reads (Value.ofClass k vs) (Value.ofClass k out) :=
  List.rel_filter (fun _ _ hv => by simp only [hv.class?_eq]) h

theorem reads_flatMap_items (h : Forall₂ Reads vs out) :
    Forall₂ Reads (vs.flatMap Value.items) (out.flatMap Value.items) :=
  List.rel_flatMap h fun _ _ hv => hv.items

theorem reads_filterMap_slot? (i : Nat) (h : Forall₂ Reads vs out) :
    Forall₂ Reads (vs.filterMap (Value.slot? i)) (out.filterMap (Value.slot? i)) :=
  List.rel_filterMap (fun _ _ hv => hv.slot? i) h

theorem reads_filterMap_field? (key : String) (h : Forall₂ Reads vs out) :
    Forall₂ Reads (vs.filterMap (Value.field? key)) (out.filterMap (Value.field? key)) :=
  List.rel_filterMap (fun _ _ hv => hv.field? key) h

theorem seen_of_reads (h : Forall₂ Reads vs out) : seen out [] = seen vs [] :=
  map_class?_of_reads h

/-- What is the same of a value and of what is read back of it. -/
theorem map_eq_of_reads {α : Type} {f : Value → α} (h : Forall₂ Reads vs out)
    (hf : ∀ v ∈ vs, ∀ w ∈ out, Reads v w → f w = f v) : out.map f = vs.map f := by
  induction h with
  | nil => rfl
  | cons hv _ ih =>
    rw [List.map_cons, List.map_cons,
      hf _ List.mem_cons_self _ List.mem_cons_self hv,
      ih fun v hv w hw => hf v (List.mem_cons_of_mem _ hv) w (List.mem_cons_of_mem _ hw)]

/-- Values that are read back as they are. -/
theorem eq_of_reads (h : Forall₂ Reads vs out)
    (hvs : ∀ v ∈ vs, ∀ w ∈ out, Reads v w → w = v) : out = vs := by
  have hmap := map_eq_of_reads (f := id) h hvs
  rwa [List.map_id, List.map_id] at hmap

/-- A member of one list is related to one of the other. -/
theorem exists_of_forall₂ {α β : Type} {R : α → β → Prop} {l : List α} {m : List β}
    (h : Forall₂ R l m) {a : α} (ha : a ∈ l) : ∃ b ∈ m, R a b := by
  induction h with
  | nil => cases ha
  | cons hb _ ih =>
    rcases List.mem_cons.mp ha with rfl | ha
    · exact ⟨_, List.mem_cons_self, hb⟩
    · obtain ⟨b, hmem, hR⟩ := ih ha
      exact ⟨b, List.mem_cons_of_mem _ hmem, hR⟩

theorem reads_time {kind : TimeKind} {n : Int64} {unit : TimeUnit} {w : Value}
    (h : Reads (.time kind n unit) w) : w = .time kind n unit := by
  cases kind <;>
    · cases h
      rfl

theorem reads_string {encoding : Encoding} {v w : Value}
    (hv : v.class? = some (.string encoding)) (h : Reads v w) : w = v := by
  cases h with
  | same => rfl
  | _ => cases hv

theorem Column.OfClass.reread {fresh : Prop} {k : ElementClass}
    (hk : Column.OfClass fresh k vs []) (h : Forall₂ Reads vs out) :
    Column.OfClass fresh k out [] := by
  obtain ⟨hall, hne⟩ := hk
  rw [← seen_of_reads h] at hall hne
  exact ⟨hall, hne⟩

/-! ### The forms of layouts -/

namespace Column

variable {o : Options} {fresh : Prop} {partition : String} {ps : Parameters} {next : Nat}
  {w : Value}

open Form (Describes)

/-- The form and the buffers of a column among several. -/
theorem exists_layout (partition : String) (next : Nat) {cs : List Column} {i : Nat} {c : Column}
    (hc : cs[i]? = some c) :
    ∃ m, (layouts partition next cs).forms[i]? = some (c.layout partition [] m).form ∧
      (c.layout partition [] m).buffers ⊆ (layouts partition next cs).buffers := by
  induction cs generalizing next i with
  | nil => cases hc
  | cons d cs ih =>
    cases i with
    | zero =>
      cases hc
      exact ⟨next, rfl, List.subset_append_left _ _⟩
    | succ i =>
      obtain ⟨m, hform, hbuffers⟩ := ih _ hc
      exact ⟨m, hform, List.subset_append_of_subset_right _ hbuffers⟩

theorem length_layouts (cs : List Column) (next : Nat) :
    (layouts partition next cs).forms.length = cs.length := by
  induction cs generalizing next with
  | nil => rfl
  | cons c cs ih => rw [layouts, List.length_cons, ih, List.length_cons]

theorem described_flat {primitive : Primitive} {b : Buffer}
    (h : (flatLayout partition ps next primitive b).form.Describes w) : primitive.Holds w := by
  cases h with
  | flat h => exact h

theorem described_string {encoding : Encoding} {offsets : Array Nat} {data : Array UInt8}
    (h : ((string encoding offsets data).layout partition ps next).form.Describes w) :
    w.class? = some (.string encoding) := by
  have hself : (Form.list .i64 (flatLayout partition
      [(arrayParameter, .string encoding.itemName)] (next + 1) .uint8 (.uint8 data)).form
      ⟨assign ps arrayParameter (.string encoding.arrayName), some (nodeKey next)⟩).stringKind?
      = some encoding := by
    rw [Form.stringKind?_list, lookup_assign_self]
    exact Encoding.ofArrayName?_arrayName encoding
  rw [layout] at h
  cases h with
  | string hkind hv =>
    rw [hself] at hkind
    cases hkind
    exact hv
  | list hkind =>
    rw [hself] at hkind
    cases hkind

theorem described_option {index : Array (Option Nat)} {content : Column}
    (h : ((option index content).layout partition ps next).form.Describes w)
    (hw : w.class?.isSome) : (content.layout partition [] (next + 1)).form.Describes w := by
  rw [layout] at h
  cases h with
  | null => cases hw
  | present h => exact h

theorem described_list {offsets : Array Nat} {content : Column} {isOpen : Bool} (hps : Plain ps)
    (h : ((list offsets content isOpen).layout partition ps next).form.Describes w) :
    ∃ items, w = .list items ∧
      ∀ v ∈ items, (content.layout partition [] (next + 1)).form.Describes v := by
  rw [layout] at h
  cases h with
  | string hkind hv =>
    rw [Form.stringKind?_list, hps.array] at hkind
    cases hkind
  | list _ h => exact ⟨_, rfl, h⟩

theorem described_tuple {slots : List Column} {n : Nat} {filling : Filling}
    (h : ((tuple slots n filling).layout partition ps next).form.Describes w) :
    w.class? = some (.tuple slots.length) ∧
      ∀ (i : Nat) (f : Form) (v : Value), (layouts partition (next + 1) slots).forms[i]? = some f →
        w.slot? i = some v → f.Describes v := by
  rw [layout] at h
  cases h with
  | @tuple contents _ items hlen h =>
    refine ⟨by rw [Value.class?, hlen, length_layouts], ?_⟩
    intro i f v hf hv
    have hlt : i < items.length := hlen ▸ (List.getElem?_eq_some_iff.mp hf).1
    rw [Value.slot?, List.getElem?_eq_getElem hlt] at hv
    exact h i f v hf ((List.getElem?_eq_getElem hlt).trans hv)

/-- The name that records are laid out with. -/
theorem recordName (hps : Plain ps) (name : Option String) :
    (lookup (recordParameters ps name) recordParameter).bind Document.asString? = name := by
  cases name with
  | none =>
    rw [recordParameters, hps.record]
    rfl
  | some name =>
    rw [recordParameters, lookup_assign_self]
    rfl

/-- What stands under a key in a row, which has one item for each key in order. -/
theorem lookup_zip {α : Type} {keys : List String} {items : List α} {i : Nat} {key : String}
    (hnd : keys.Nodup) (hlen : items.length = keys.length) (hkey : keys[i]? = some key) :
    lookup (keys.zip items) key = items[i]? := by
  have hkeys : ((keys.zip items).map Prod.fst).Nodup := by
    rwa [List.map_fst_zip (Nat.le_of_eq hlen.symm)]
  have hlt : i < items.length := hlen ▸ (List.getElem?_eq_some_iff.mp hkey).1
  have hv := List.getElem?_eq_getElem hlt
  rw [hv]
  refine lookup_of_mem hkeys (List.mem_of_getElem? (i := i) ?_)
  exact List.getElem?_zip_eq_some.mpr ⟨hkey, hv⟩

theorem described_record {name : Option String} {fields : List (String × Column)} {n : Nat}
    {filling : Filling} {settled declared : Bool} (hps : Plain ps)
    (hnd : (fields.map Prod.fst).Nodup)
    (h : ((record name fields n filling settled declared).layout partition ps
      next).form.Describes w) :
    w.class? = some (.record name) ∧ w.keys = fields.map Prod.fst ∧
      ∀ (i : Nat) (f : Form) (key : String) (v : Value), (fields.map Prod.fst)[i]? = some key →
        (layouts partition (next + 1) (columnsOf fields)).forms[i]? = some f →
        w.field? key = some v → f.Describes v := by
  rw [layout, fieldLayouts_eq] at h
  cases h with
  | @record contents keys l items hlen h =>
    rw [length_layouts, columnsOf_length, ← List.length_map Prod.fst] at hlen
    have hzip : ((fields.map Prod.fst).zip items).map Prod.fst = fields.map Prod.fst :=
      List.map_fst_zip (Nat.le_of_eq hlen.symm)
    rw [← tableOf_eq_lastEntries, tableOf_of_nodup (by rwa [hzip]), recordName hps]
    refine ⟨rfl, hzip, ?_⟩
    intro i f key v hkey hf hv
    have hlt : i < items.length := hlen ▸ (List.getElem?_eq_some_iff.mp hkey).1
    rw [Value.field?, lookup_zip hnd hlen hkey, List.getElem?_eq_getElem hlt] at hv
    exact h i f v hf ((List.getElem?_eq_getElem hlt).trans hv)

/-- What a column of one class describes is of that class. -/
theorem class?_of_describes {c : Column} {k : ElementClass} (hps : Plain ps)
    (hk : c.class? = some k) (h : (c.layout partition ps next).form.Describes w) :
    w.class? = some k := by
  cases c with
  | unknown | option | union => cases hk
  | bool | int64 | float64 | complex128 =>
    cases hk
    obtain ⟨⟩ := described_flat h
    rfl
  | time kind unit =>
    cases hk
    cases described_flat h with
    | time n hw => exact hw ▸ Value.class?_time kind n unit
  | string encoding =>
    cases hk
    exact described_string h
  | list =>
    cases hk
    obtain ⟨items, rfl, -⟩ := described_list hps h
    rfl
  | tuple slots =>
    cases hk
    exact (described_tuple h).1
  | record =>
    cases hk
    rw [layout] at h
    obtain ⟨⟩ := h
    rw [Value.class?, recordName hps]

/-- What a union describes is described by the child of its class. -/
theorem described_union {tags index : Array Nat} {children : List Column} {current : Option Nat}
    {i : Nat} {c : Column} {m : Nat} (hs : UnionSound tags index children current)
    (hc : children[i]? = some c)
    (hm : (layouts partition (next + 1) children).forms[i]? = some (c.layout partition [] m).form)
    (hw : w.class? = c.class?)
    (h : ((union tags index children current).layout partition ps next).form.Describes w) :
    (c.layout partition [] m).form.Describes w := by
  rw [layout] at h
  cases h with
  | union hf h =>
    obtain ⟨j, hj, rfl⟩ := List.mem_iff_getElem.mp hf
    have hj' : j < children.length := length_layouts children _ ▸ hj
    obtain ⟨m', hm', -⟩ := exists_layout partition (next + 1) (List.getElem?_eq_getElem hj')
    obtain ⟨k, hk⟩ := Option.isSome_iff_exists.mp (hs.classes _ (List.getElem_mem hj'))
    have hform := hm'
    rw [List.getElem?_eq_getElem hj] at hform
    rw [Option.some.inj hform] at h
    -- classes are distinct, so the form is that of the child
    have hkw := class?_of_describes plain_nil hk h
    have hi : i < (children.map class?).length := by
      rw [List.length_map]
      exact (List.getElem?_eq_some_iff.mp hc).1
    have hij : i = j := by
      refine (List.getElem?_inj hi hs.distinct).mp ?_
      rw [List.getElem?_map, List.getElem?_map, hc, List.getElem?_eq_getElem hj',
        Option.map_some, Option.map_some, ← hw, hkw, hk]
    subst hij
    obtain rfl : c = children[i] := by
      rw [List.getElem?_eq_getElem hj'] at hc
      exact (Option.some.inj hc).symm
    rw [hm] at hm'
    rw [Option.some.inj hm']
    exact h

/-! ### Rows that are read back -/

/-- Records with all fields of a column add none to it. -/
theorem KeysFit.all_again {o : Options} {fresh : Prop} {name : Option String}
    {keys seenKeys : List String} (h : KeysFit o fresh name keys seenKeys) {n : Nat}
    (hn : fresh → 0 < n) : KeysFit o fresh name keys (List.replicate n keys).flatten := by
  have hmem : ∀ n, ∀ key ∈ (List.replicate n keys).flatten, key ∈ keys := by
    intro n key hkey
    obtain ⟨l, hl, hkey⟩ := List.mem_flatten.mp hkey
    exact List.eq_of_mem_replicate hl ▸ hkey
  refine ⟨hmem n, ?_⟩
  intro hf
  obtain ⟨m, rfl⟩ := Nat.exists_eq_succ_of_ne_zero (Nat.ne_of_gt (hn hf))
  rw [List.replicate_succ, List.flatten_cons, ← List.append_assoc,
    List.eraseDups_append_of_subset fun key hkey => List.mem_append_right _ (hmem m key hkey),
    h.eq hf, List.eraseDups_append_eraseDups]

/-- **A column holds the values that are read back of it**, just as it holds those that were
put in. -/
theorem Fits.reread {o : Options} {fresh : Prop} {c : Column} {vs out : List Value}
    (h : Fits o fresh c vs []) (hs : c.Sound) (hps : Plain ps) (hreads : Forall₂ Reads vs out)
    (hout : ∀ w ∈ out, (c.layout partition ps next).form.Describes w) :
    Fits o fresh c out [] := by
  induction c using Column.induct generalizing ps next vs out with
  | node c ih =>
    have hseen := seen_of_reads hreads
    -- values of one class that are read back as they are
    have hsame : (∀ v ∈ vs, ∀ w ∈ out, Reads v w → w = v) → Fits o fresh c out [] :=
      fun heq => eq_of_reads hreads heq ▸ h
    have hbelow : ∀ d ∈ c.children, ∀ {vs out : List Value} (next : Nat), Fits o fresh d vs [] →
        Forall₂ Reads vs out → (∀ w ∈ out, (d.layout partition [] next).form.Describes w) →
        Fits o fresh d out [] :=
      fun d hd _ _ _ hfit hreads hout => ih d hd hfit (hs.children d hd) plain_nil hreads hout
    cases h with
    | unknown n =>
      refine hsame fun v hv w _ hw => ?_
      rw [List.eq_of_mem_replicate hv] at hw ⊢
      exact reads_null hw
    | option hindex hnull hc =>
      refine .option (hseen ▸ hindex) ?_
        (hbelow _ (List.mem_singleton_self _) (next + 1) hc (reads_present hreads) ?_)
      · intro hf
        obtain ⟨w, hw, hread⟩ := exists_of_forall₂ hreads (hnull hf)
        exact reads_null hread ▸ hw
      · intro w hw
        obtain ⟨hw, hsome⟩ := List.mem_filter.mp hw
        exact described_option (hout w hw) hsome
    | bool hvs =>
      refine hsame fun v hv w _ hw => ?_
      rw [hvs] at hv
      obtain ⟨b, -, rfl⟩ := List.mem_map.mp hv
      cases hw
      rfl
    | time hvs =>
      refine hsame fun v hv w _ hw => ?_
      rw [hvs] at hv
      obtain ⟨n, -, rfl⟩ := List.mem_map.mp hv
      exact reads_time hw
    | int64 hvs =>
      refine hsame fun v hv w hmem hw => ?_
      obtain ⟨⟩ := described_flat (hout w hmem)
      cases hw
      rfl
    | float64 hvs hne =>
      refine .float64 ((map_eq_of_reads hreads ?_).trans hvs) ?_
      · intro v _ w hmem hw
        obtain ⟨⟩ := described_flat (hout w hmem)
        cases hw <;> rfl
      · intro hf
        obtain ⟨x, hx⟩ := hne hf
        obtain ⟨w, hmem, -⟩ := exists_of_forall₂ hreads hx
        cases described_flat (hout w hmem)
        exact ⟨_, hmem⟩
    | complex128 hvs hne =>
      refine .complex128 ((map_eq_of_reads hreads ?_).trans hvs) ?_
      · intro v _ w hmem hw
        obtain ⟨⟩ := described_flat (hout w hmem)
        cases hw <;> rfl
      · intro hf
        obtain ⟨z, hz⟩ := hne hf
        obtain ⟨w, hmem, -⟩ := exists_of_forall₂ hreads hz
        cases described_flat (hout w hmem)
        exact ⟨_, hmem⟩
    | string hk =>
      exact hsame fun v hv w _ hw => reads_string (hk.all _ (class?_mem_seen hv [])) hw
    | list hk hoffsets hc =>
      refine .list (hk.reread hreads) ?_
        (hbelow _ (List.mem_singleton_self _) (next + 1) hc (reads_flatMap_items hreads) ?_)
      · rwa [map_eq_of_reads hreads fun v _ w _ hw => hw.items.length_eq.symm]
      · intro w hw
        obtain ⟨v, hv, hw⟩ := List.mem_flatMap.mp hw
        obtain ⟨items, rfl, hitems⟩ := described_list hps (hout v hv)
        exact hitems w hw
    | tuple hk hn hc =>
      refine .tuple (hk.reread hreads) (hn.trans hreads.length_eq) ?_
      intro i c hi
      obtain ⟨m, hm, -⟩ := exists_layout partition (next + 1) hi
      refine hbelow c (List.mem_of_getElem? hi) m (hc i c hi) (reads_filterMap_slot? i hreads) ?_
      intro w hw
      obtain ⟨v, hv, hw⟩ := List.mem_filterMap.mp hw
      exact (described_tuple (hout v hv)).2 i _ w hm hw
    | @record name fields _ _ _ _ hk hn hkeys hdistinct hc =>
      have hnd := hs.node.2
      have hkeysOf : ∀ w ∈ out, w.keys = fields.map Prod.fst := fun w hw =>
        (described_record hps hnd (hout w hw)).2.1
      refine .record (hk.reread hreads) (hn.trans hreads.length_eq) ?_ ?_ ?_
      · rw [List.flatMap_def, List.map_congr_left hkeysOf, List.map_const']
        refine hkeys.all_again fun hf => ?_
        rw [← hreads.length_eq]
        exact List.length_pos_of_ne_nil fun hnil => hk.ne_nil hf (by rw [hnil]; rfl)
      · intro w hw
        rwa [hkeysOf w hw]
      · intro key c hmem
        obtain ⟨i, hi⟩ := List.mem_iff_getElem?.mp hmem
        have hkey : (fields.map Prod.fst)[i]? = some key := by
          rw [List.getElem?_map, hi]
          rfl
        have hci : (columnsOf fields)[i]? = some c := by
          rw [columnsOf, List.getElem?_map, hi]
          rfl
        obtain ⟨m, hm, -⟩ := exists_layout partition (next + 1) hci
        refine hbelow c (List.mem_of_getElem? hci) m (hc key c hmem)
          (reads_filterMap_field? key hreads) ?_
        intro w hw
        obtain ⟨v, hv, hw⟩ := List.mem_filterMap.mp hw
        exact (described_record hps hnd (hout v hv)).2.2 i _ key w hkey hm hw
    | union htags hindex hmem hcurrent hclasses hc =>
      refine .union (hseen ▸ htags) (hseen ▸ hindex) (hseen ▸ hmem) hcurrent (hseen ▸ hclasses) ?_
      intro c hchild
      obtain ⟨i, hi⟩ := List.mem_iff_getElem?.mp hchild
      obtain ⟨m, hm, -⟩ := exists_layout partition (next + 1) hi
      refine hbelow c hchild m (hc c hchild) (reads_ofClass _ hreads) ?_
      intro w hw
      obtain ⟨hw, hclass⟩ := List.mem_filter.mp hw
      exact described_union hs.node hi hm (by simpa using hclass) (hout w hw)

end Column

end Columnar
