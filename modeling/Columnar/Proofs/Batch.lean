import Columnar.Proofs.Holding

/-!
# Layouts of finished lists of values

A list of values that is there as a whole can be laid out without a builder: which classes
occur, which fields, and which width the numbers need is looked up in the values, and then
each column is written down.  A builder, which sees the values one push after another, comes
to the same layout: nothing of the way in which a column grew is left in it.

## Main definitions

* `Batch.classes`, `Batch.keys` — the classes of values and the keys of records, each once,
  in the order of their first appearance.
* `Batch.columnLayout` — the layout of a column of values.

## Main results

* `Batch.layout_eq` — a column that was never cleared is laid out like what it holds.
* `Builder.layout_extend` — **a builder lays out values like the finished list of them.**
-/

namespace Columnar

/-- Layouts one after another, each given by the number of its first node. -/
def Layouts.chain : List (Nat → Layout) → Nat → Layouts
  | [], next => ⟨[], [], next⟩
  | f :: fs, next =>
    let head := f next
    let tail := chain fs head.next
    ⟨head.form :: tail.forms, head.buffers ++ tail.buffers, tail.next⟩

namespace Batch

/-! ### What is looked up in the values -/

/-- The classes of values that are not missing, in the order of their first appearance. -/
def classes (vs : List Value) : List ElementClass := (vs.filterMap Value.class?).eraseDups

/-- The keys of records of a name: the declared ones, and then those that occur, in the order
of their first appearance. -/
def keys (o : Options) (name : Option String) (vs : List Value) : List String :=
  ((o.declaredFields? name).getD [] ++ vs.flatMap Value.keys).eraseDups

/-- A truth value. -/
def bool? : Value → Option Bool
  | .bool b => some b
  | _ => none

/-- An integer. -/
def int? : Value → Option Int64
  | .int n => some n
  | _ => none

/-- The count of a time. -/
def count? : Value → Option Int64
  | .datetime n _ => some n
  | .timedelta n _ => some n
  | _ => none

/-- Whether a value is a real. -/
def isReal : Value → Bool
  | .real _ => true
  | _ => false

/-- Whether a value is a complex number. -/
def isComplex : Value → Bool
  | .complex _ => true
  | _ => false

/-- What the values take up: every part of a value takes up less than the value. -/
noncomputable def weight (vs : List Value) : Nat := (vs.map fun v => sizeOf v).sum

theorem weight_filter_le (p : Value → Bool) (vs : List Value) :
    weight (vs.filter p) ≤ weight vs := by
  induction vs with
  | nil => exact Nat.le_refl _
  | cons v vs ih =>
    simp only [weight, List.filter_cons, List.map_cons, List.sum_cons] at ih ⊢
    split
    · simp only [List.map_cons, List.sum_cons]
      omega
    · omega

/-- Parts of values take up less than the values. -/
theorem weight_flatMap_le {f : Value → List Value} (hf : ∀ v, weight (f v) < sizeOf v)
    (vs : List Value) : weight (vs.flatMap f) + vs.length ≤ weight vs := by
  induction vs with
  | nil => exact Nat.le_refl _
  | cons v vs ih =>
    have hv := hf v
    simp only [weight, List.flatMap_cons, List.map_append, List.sum_append, List.map_cons,
      List.sum_cons, List.length_cons] at ih hv ⊢
    omega

theorem sizeOf_pos (v : Value) : 0 < sizeOf v := by
  cases v <;>
    simp only [Value.null.sizeOf_spec, Value.bool.sizeOf_spec, Value.int.sizeOf_spec,
      Value.real.sizeOf_spec, Value.complex.sizeOf_spec, Value.datetime.sizeOf_spec,
      Value.timedelta.sizeOf_spec, Value.string.sizeOf_spec, Value.bytes.sizeOf_spec,
      Value.list.sizeOf_spec, Value.tuple.sizeOf_spec, Value.record.sizeOf_spec] <;>
    omega

theorem sizeOf_list_pos {α : Type} [SizeOf α] (l : List α) : 0 < sizeOf l := by
  cases l with
  | nil => exact Nat.one_pos
  | cons a l =>
    rw [List.cons.sizeOf_spec]
    omega

/-- A column of parts comes before the column of the values. -/
theorem columnWeight_lt {ws vs : List Value} (h : weight ws + vs.length ≤ weight vs) :
    (if ws.isEmpty then 0 else 3 * weight ws + 3) < 3 * weight vs + 1 := by
  split
  · exact Nat.succ_pos _
  · next hne =>
    cases vs with
    | nil =>
      cases ws with
      | nil => exact absurd rfl hne
      | cons w ws =>
        have hpos := sizeOf_pos w
        simp only [weight, List.map_cons, List.sum_cons, List.map_nil, List.sum_nil,
          List.length_nil] at h
        omega
    | cons v vs =>
      rw [List.length_cons] at h
      omega

theorem weight_lt_sizeOf (vs : List Value) : weight vs < sizeOf vs := by
  induction vs with
  | nil => simp [weight]
  | cons v vs ih =>
    simp only [weight, List.map_cons, List.sum_cons, List.cons.sizeOf_spec] at ih ⊢
    omega

theorem weight_items_lt (v : Value) : weight v.items < sizeOf v := by
  cases v with
  | list items =>
    have hlt := weight_lt_sizeOf items
    simp only [Value.items, Value.list.sizeOf_spec]
    omega
  | _ => exact sizeOf_pos _

theorem weight_slot_lt (i : Nat) (v : Value) : weight (v.slot? i).toList < sizeOf v := by
  cases v with
  | tuple items =>
    have hlt : sizeOf ((items[i]?).getD .null) < 1 + sizeOf items := by
      cases hi : items[i]? with
      | none =>
        have hpos := sizeOf_list_pos items
        rw [Option.getD_none, Value.null.sizeOf_spec]
        omega
      | some w =>
        have hw := List.sizeOf_lt_of_mem (List.mem_of_getElem? hi)
        rw [Option.getD_some]
        omega
    simpa [Value.slot?, weight] using hlt
  | _ => exact sizeOf_pos _

theorem weight_field_lt (key : String) (v : Value) : weight (v.field? key).toList < sizeOf v := by
  cases v with
  | record name fields =>
    have hlt : sizeOf ((lookup fields key).getD .null) < 1 + sizeOf name + sizeOf fields := by
      cases hi : lookup fields key with
      | none =>
        have hpos := sizeOf_list_pos fields
        rw [Option.getD_none, Value.null.sizeOf_spec]
        omega
      | some w =>
        have hw := List.sizeOf_lt_of_mem (mem_of_lookup hi)
        rw [Prod.mk.sizeOf_spec] at hw
        rw [Option.getD_some]
        omega
    simpa [Value.field?, weight] using hlt
  | _ => exact sizeOf_pos _

/-! ### Layouts -/

/-- Numbers, all as wide as the widest of them. -/
def numberLayout (partition : String) (ps : Parameters) (next : Nat) (vs : List Value) : Layout :=
  if vs.any isComplex then
    Column.flatLayout partition ps next .complex128
      (.complex128 (vs.filterMap Value.toComplex?).toArray)
  else if vs.any isReal then
    Column.flatLayout partition ps next .float64 (.float64 (vs.filterMap Value.toReal?).toArray)
  else
    Column.flatLayout partition ps next .int64
      (.int64 ((vs.filterMap int?).map Int64.toInt).toArray)

/-- Strings of one encoding: where each of them ends, and their bytes. -/
def stringLayout (partition : String) (ps : Parameters) (next : Nat) (encoding : Encoding)
    (vs : List Value) : Layout :=
  let key := nodeKey next
  let bytes := Column.flatLayout partition [(arrayParameter, .string encoding.itemName)] (next + 1)
    .uint8 (.uint8 (vs.flatMap Value.data).toArray)
  ⟨.list .i64 bytes.form ⟨assign ps arrayParameter (.string encoding.arrayName), some key⟩,
    (bufferName partition key "offsets",
      .int64 ((offsetsFrom 0 (vs.map fun v => v.data.length)).map Int.ofNat).toArray)
      :: bytes.buffers,
    bytes.next⟩

mutual

/-- The layout of a column of values, its nodes numbered from `next`. -/
def columnLayout (o : Options) (partition : String) (ps : Parameters) (next : Nat)
    (vs : List Value) : Layout :=
  if vs.isEmpty then ⟨.empty ⟨ps, some (nodeKey next)⟩, [], next + 1⟩
  else if vs.any Value.isNull then
    let key := nodeKey next
    let inner := presentLayout o partition [] (next + 1) (Value.present vs)
    ⟨.option .i64 inner.form ⟨ps, some key⟩,
      (bufferName partition key "index",
        .int64 ((placesFrom 0 (vs.map Value.class?)).map Column.placeInt).toArray)
        :: inner.buffers,
      inner.next⟩
  else presentLayout o partition ps next vs
termination_by if vs.isEmpty then 0 else 3 * weight vs + 3
decreasing_by
  · have hle := weight_filter_le (fun v => v.class?.isSome) vs
    rw [if_neg (by assumption), Value.present]
    omega
  · rw [if_neg (by assumption)]
    omega

/-- The layout of values none of which is missing. -/
def presentLayout (o : Options) (partition : String) (ps : Parameters) (next : Nat)
    (vs : List Value) : Layout :=
  match classes vs with
  | [] => ⟨.empty ⟨ps, some (nodeKey next)⟩, [], next + 1⟩
  | [k] => classLayout o partition ps next k vs
  | ks =>
    let key := nodeKey next
    let inner := Layouts.chain
      (ks.map fun k next => classLayout o partition [] next k (Value.ofClass (some k) vs))
      (next + 1)
    ⟨.union .i8 .i64 inner.forms ⟨ps, some key⟩,
      (bufferName partition key "tags",
        .int8 ((vs.map fun v => (ks.map some).idxOf v.class?).map Int.ofNat).toArray)
        :: (bufferName partition key "index",
          .int64 ((ranks (vs.map Value.class?)).map Int.ofNat).toArray)
        :: inner.buffers,
      inner.next⟩
termination_by 3 * weight vs + 2
decreasing_by
  · omega
  · have hle := weight_filter_le (fun v => v.class? == some k) vs
    rw [Value.ofClass]
    omega

/-- The layout of values of one class. -/
def classLayout (o : Options) (partition : String) (ps : Parameters) (next : Nat)
    (k : ElementClass) (vs : List Value) : Layout :=
  let key := nodeKey next
  match k with
  | .bool => Column.flatLayout partition ps next .bool (.bool (vs.filterMap bool?).toArray)
  | .number => numberLayout partition ps next vs
  | .time kind unit =>
    Column.flatLayout partition ps next (.time kind unit)
      (.int64 ((vs.filterMap count?).map Int64.toInt).toArray)
  | .string encoding => stringLayout partition ps next encoding vs
  | .list =>
    let inner := columnLayout o partition [] (next + 1) (vs.flatMap Value.items)
    ⟨.list .i64 inner.form ⟨ps, some key⟩,
      (bufferName partition key "offsets",
        .int64 ((offsetsFrom 0 (vs.map fun v => v.items.length)).map Int.ofNat).toArray)
        :: inner.buffers,
      inner.next⟩
  | .tuple n =>
    let inner := Layouts.chain ((List.range n).map fun i next =>
      columnLayout o partition [] next (vs.filterMap (Value.slot? i))) (next + 1)
    ⟨.record inner.forms none ⟨ps, some key⟩, inner.buffers, inner.next⟩
  | .record name =>
    let inner := Layouts.chain ((keys o name vs).map fun key next =>
      columnLayout o partition [] next (vs.filterMap (Value.field? key))) (next + 1)
    ⟨.record inner.forms (some (keys o name vs)) ⟨Column.recordParameters ps name, some key⟩,
      inner.buffers, inner.next⟩
termination_by 3 * weight vs + 1
decreasing_by
  · exact columnWeight_lt (weight_flatMap_le weight_items_lt vs)
  · rw [List.filterMap_eq_flatMap_toList]
    exact columnWeight_lt (weight_flatMap_le (weight_slot_lt i) vs)
  · rw [List.filterMap_eq_flatMap_toList]
    exact columnWeight_lt (weight_flatMap_le (weight_field_lt key) vs)

end

/-! ### Columns that were never cleared -/

variable {o : Options} {partition : String} {c : Column} {vs : List Value}

theorem not_any_isNull (h : ∀ m ∈ seen vs [], m.isSome = true) :
    vs.any Value.isNull = false := by
  rw [List.any_eq_false]
  intro v hv
  have hsome := h _ (Column.class?_mem_seen hv [])
  cases v with
  | null => cases hsome
  | _ => exact Bool.false_ne_true

/-- Without a missing value, a column is laid out like its present values. -/
theorem columnLayout_of_present (h : vs.any Value.isNull = false) (ps : Parameters) (next : Nat) :
    columnLayout o partition ps next vs = presentLayout o partition ps next vs := by
  rw [columnLayout]
  split
  · next hnil =>
    rw [List.isEmpty_iff.mp hnil, presentLayout]
    rfl
  · rw [h]
    rfl

theorem seen_eraseDups (h : ∀ m ∈ seen vs [], m.isSome = true) :
    (seen vs []).eraseDups = (classes vs).map some := by
  have hmap : seen vs [] = (vs.filterMap Value.class?).map some := by
    induction vs with
    | nil => rfl
    | cons v vs ih =>
      obtain ⟨k, hk⟩ := Option.isSome_iff_exists.mp (h v.class? List.mem_cons_self)
      have htail := ih fun m hm => h m (List.mem_cons_of_mem _ hm)
      rw [seen] at htail ⊢
      rw [List.map_cons, htail, List.filterMap_cons_some hk, List.map_cons, hk]
  rw [hmap, List.eraseDups_map_some, classes]

/-- With a missing value, a column is laid out as an index into its present values. -/
theorem columnLayout_of_null (h : .null ∈ vs) (ps : Parameters) (next : Nat) :
    columnLayout o partition ps next vs =
      let inner := columnLayout o partition [] (next + 1) (Value.present vs)
      ⟨.option .i64 inner.form ⟨ps, some (nodeKey next)⟩,
        (bufferName partition (nodeKey next) "index",
          .int64 ((placesFrom 0 (vs.map Value.class?)).map Column.placeInt).toArray)
          :: inner.buffers,
        inner.next⟩ := by
  have hpresent : (Value.present vs).any Value.isNull = false := by
    rw [List.any_eq_false]
    intro v hv
    have hsome := (List.mem_filter.mp hv).2
    cases v with
    | null => cases hsome
    | _ => exact Bool.false_ne_true
  rw [columnLayout, columnLayout_of_present hpresent]
  split
  · next hnil => exact absurd (List.isEmpty_iff.mp hnil) (List.ne_nil_of_mem h)
  · rw [if_pos (List.any_eq_true.mpr ⟨_, h, rfl⟩)]

/-- Values of one class are laid out as that class says. -/
theorem presentLayout_of_class {k : ElementClass} (hk : ∀ m ∈ seen vs [], m = some k)
    (hne : seen vs [] ≠ []) (ps : Parameters) (next : Nat) :
    presentLayout o partition ps next vs = classLayout o partition ps next k vs := by
  have hclasses : classes vs = [k] := by
    have hmap : (seen vs []).eraseDups = (classes vs).map some :=
      seen_eraseDups fun m hm => by rw [hk m hm]; rfl
    -- values of one class only, at least one of them, have this one class
    have hall : seen vs [] = List.replicate (seen vs []).length (some k) :=
      List.eq_replicate_iff.mpr ⟨rfl, hk⟩
    obtain ⟨n, hn⟩ := Nat.exists_eq_succ_of_ne_zero (mt List.length_eq_zero_iff.mp hne)
    rw [hall, hn, List.eraseDups_replicate] at hmap
    cases hc : classes vs with
    | nil =>
      rw [hc] at hmap
      cases hmap
    | cons k' rest =>
      rw [hc] at hmap
      cases rest with
      | nil =>
        cases hmap
        rfl
      | cons => cases hmap
  rw [presentLayout, hclasses]

theorem filterMap_of_map_eq {α β : Type} {f : α → Option β} {l : List α} {m : List β}
    (h : l.map f = m.map some) : l.filterMap f = m := by
  have hf : l.filterMap f = (l.map f).filterMap id := by rw [List.filterMap_map]; rfl
  rw [hf, h, List.filterMap_map]
  simp

/-- Layouts of columns one after another. -/
theorem layouts_eq_chain (cs : List Column) (next : Nat) :
    Column.layouts partition next cs
      = Layouts.chain (cs.map fun c next => c.layout partition [] next) next := by
  induction cs generalizing next with
  | nil => rfl
  | cons c cs ih =>
    rw [Column.layouts, ih]
    rfl

theorem fieldLayouts_eq_chain (fields : List (String × Column)) (next : Nat) :
    Column.fieldLayouts partition next fields
      = Layouts.chain (fields.map fun f next => f.2.layout partition [] next) next := by
  induction fields generalizing next with
  | nil => rfl
  | cons f rest ih =>
    rw [Column.fieldLayouts, ih]
    rfl

theorem toArray_map_toList {α β : Type} (f : α → β) (xs : Array α) :
    (xs.toList.map f).toArray = xs.map f := by
  rw [← Array.toList_map, Array.toArray_toList]

theorem any_isComplex_of_reals {values : List Binary64}
    (h : vs.map Value.toReal? = values.map some) : vs.any isComplex = false := by
  rw [List.any_eq_false]
  intro v hv
  obtain ⟨x, hx⟩ := Value.exists_of_map_eq_map_some h hv
  cases v with
  | complex z => cases hx
  | _ => exact Bool.false_ne_true

theorem columnLayout_of_class {k : ElementClass} (h : c.Fits o True vs []) (hk : c.class? = some k)
    (ps : Parameters) (next : Nat) :
    columnLayout o partition ps next vs = classLayout o partition ps next k vs := by
  have hall := h.all_class hk
  rw [columnLayout_of_present (not_any_isNull fun m hm => by rw [hall m hm]; rfl),
    presentLayout_of_class hall (h.seen_ne_nil hk trivial)]

/-- Values of several classes are laid out class by class. -/
theorem columnLayout_of_union (hsome : ∀ m ∈ seen vs [], m.isSome = true)
    (htwo : 2 ≤ (classes vs).length) (ps : Parameters) (next : Nat) :
    columnLayout o partition ps next vs =
      let inner := Layouts.chain ((classes vs).map fun k next =>
        classLayout o partition [] next k (Value.ofClass (some k) vs)) (next + 1)
      ⟨.union .i8 .i64 inner.forms ⟨ps, some (nodeKey next)⟩,
        (bufferName partition (nodeKey next) "tags",
          .int8 ((vs.map fun v => ((classes vs).map some).idxOf v.class?).map Int.ofNat).toArray)
          :: (bufferName partition (nodeKey next) "index",
            .int64 ((ranks (vs.map Value.class?)).map Int.ofNat).toArray)
          :: inner.buffers,
        inner.next⟩ := by
  rw [columnLayout_of_present (not_any_isNull hsome), presentLayout]
  split
  · next h => rw [h] at htwo; simp at htwo
  · next h => rw [h] at htwo; simp at htwo
  · rfl

/-! ### The columns below -/

/-- The columns below a union are laid out like the values of their classes, which stand in the
same order. -/
theorem map_layout_children {children : List Column}
    (hclasses : children.map Column.class? = (classes vs).map some)
    (hfits : ∀ c ∈ children, c.Fits o True (Value.ofClass c.class? vs) [])
    (h : ∀ c ∈ children, ∀ next, c.layout partition [] next
      = columnLayout o partition [] next (Value.ofClass c.class? vs)) :
    (children.map fun c next => c.layout partition [] next)
      = (classes vs).map fun k next =>
          classLayout o partition [] next k (Value.ofClass (some k) vs) := by
  let child (m : Option ElementClass) (next : Nat) : Layout :=
    classLayout o partition [] next (m.getD .bool) (Value.ofClass m vs)
  calc (children.map fun c next => c.layout partition [] next)
      = children.map fun c => child c.class? := by
        apply List.map_congr_left
        intro c hc
        have hsome : c.class? ∈ (classes vs).map some := hclasses ▸ List.mem_map_of_mem hc
        obtain ⟨k, -, hk⟩ := List.mem_map.mp hsome
        funext next
        rw [h c hc, columnLayout_of_class (hfits c hc) hk.symm, ← hk]
        rfl
    _ = (children.map Column.class?).map child := by rw [List.map_map]; rfl
    _ = _ := by rw [hclasses, List.map_map]; rfl

/-- The slots of a tuple are laid out like the values at their positions. -/
theorem map_layout_slots {slots : List Column}
    (h : ∀ (i : Nat) (c : Column), slots[i]? = some c → ∀ next, c.layout partition [] next
      = columnLayout o partition [] next (vs.filterMap (Value.slot? i))) :
    (slots.map fun c next => c.layout partition [] next)
      = (List.range slots.length).map fun i next =>
          columnLayout o partition [] next (vs.filterMap (Value.slot? i)) := by
  refine List.ext_getElem (by simp) ?_
  intro i hi _
  rw [List.length_map] at hi
  rw [List.getElem_map, List.getElem_map, List.getElem_range]
  exact funext (h i _ (List.getElem?_eq_getElem hi))

/-- The fields of a record are laid out like the values at their keys. -/
theorem map_layout_fields {fields : List (String × Column)}
    (h : ∀ key c, (key, c) ∈ fields → ∀ next, c.layout partition [] next
      = columnLayout o partition [] next (vs.filterMap (Value.field? key))) :
    (fields.map fun f next => f.2.layout partition [] next)
      = (fields.map Prod.fst).map fun key next =>
          columnLayout o partition [] next (vs.filterMap (Value.field? key)) := by
  rw [List.map_map]
  apply List.map_congr_left
  intro f hf
  exact funext (h f.1 f.2 hf)

/-! ### Columns -/

/-- **A column that was never cleared is laid out like the list of the values it holds.** -/
theorem layout_eq (hs : c.Sound) (h : c.Fits o True vs []) (ps : Parameters) (next : Nat) :
    c.layout partition ps next = columnLayout o partition ps next vs := by
  -- The induction is on the columns below the root: each of them holds the parts of the values
  -- that the batch lays out in its place.
  induction c using Column.induct generalizing vs ps next with
  | node c ih =>
    have hbelow : ∀ d ∈ c.children, ∀ {ws : List Value}, d.Fits o True ws [] → ∀ next,
        d.layout partition [] next = columnLayout o partition [] next ws :=
      fun d hd _ hfit next => ih d hd (hs.children d hd) hfit [] next
    have hclass : ∀ {k : ElementClass}, c.class? = some k →
        columnLayout o partition ps next vs = classLayout o partition ps next k vs :=
      fun hk => columnLayout_of_class h hk ps next
    have hactive := h.isActive
    have hsome := h.isSome_of_kind hs
    cases h with
    | unknown n =>
      cases n with
      | zero =>
        rw [columnLayout]
        rfl
      | succ n =>
        have hpresent : Value.present (List.replicate (n + 1) .null) = [] := by
          simp [Value.present, Value.class?]
        rw [columnLayout_of_null (by simp), hpresent, columnLayout, List.map_replicate,
          Value.class?, placesFrom_replicate_none, List.map_replicate, List.toArray_replicate]
        rfl
    | @option index content _ _ hindex hnull hc =>
      -- an option that was never cleared has a missing value, as `hnull` says
      have hinner := hbelow content (List.mem_singleton_self _) hc (next + 1)
      have hlen : (Column.option index content).length = index.size := by
        rw [Column.length, show content.isActive = false from hactive]
        rfl
      rw [seen] at hindex
      rw [columnLayout_of_null (hnull trivial), Column.layout, ← hindex]
      simp only [toArray_map_toList, hinner, hlen, Array.take_eq_extract, Array.extract_size]
    | @union tags index children current _ _ htags hindex hmem hcurrent hclasses hc =>
      have hunion : Column.UnionSound tags index children current := hs.node
      have hseen := hsome (by simp [Column.kind]) (by simp [Column.kind])
      have hmap : children.map Column.class? = (classes vs).map some := by
        rw [hclasses trivial, seen_eraseDups hseen]
      have hcount : (classes vs).length = children.length := by
        simpa using (congrArg List.length hmap).symm
      have hlen : (Column.union tags index children current).length = tags.size := by
        rw [Column.length, show current.isSome = false from hactive]
        rfl
      rw [columnLayout_of_union hseen (by rw [hcount]; exact hunion.two_le), Column.layout,
        layouts_eq_chain, map_layout_children hmap hc fun c hmem => hbelow c hmem (hc c hmem)]
      have htags' : (vs.map fun v => ((classes vs).map some).idxOf v.class?) = tags.toList := by
        rw [htags, hmap, seen, List.map_map]
        rfl
      rw [seen] at hindex
      have hsize : index.size = tags.size := hunion.size_eq.symm
      simp only [htags', ← hindex, toArray_map_toList, hlen, Array.take_eq_extract,
        Array.extract_size, Column.sizesBuffer]
      rw [← hsize, Array.extract_size]
    | bool hvs =>
      rw [hclass rfl, classLayout, Column.layout, hvs]
      simp [List.filterMap_map, Function.comp_def, bool?]
    | int64 hvs =>
      rw [hclass rfl, classLayout, Column.layout, hvs, numberLayout]
      simp [List.filterMap_map, Function.comp_def, int?, Column.wordsBuffer, isComplex, isReal,
        toArray_map_toList]
    | float64 hvs hreal =>
      obtain ⟨x, hx⟩ := hreal trivial
      have hany : vs.any isReal = true := List.any_eq_true.mpr ⟨_, hx, rfl⟩
      rw [hclass rfl, classLayout, Column.layout, numberLayout, filterMap_of_map_eq hvs,
        any_isComplex_of_reals hvs, hany]
      rfl
    | complex128 hvs hcomplex =>
      obtain ⟨z, hz⟩ := hcomplex trivial
      have hany : vs.any isComplex = true := List.any_eq_true.mpr ⟨_, hz, rfl⟩
      rw [hclass rfl, classLayout, Column.layout, numberLayout, filterMap_of_map_eq hvs, hany]
      rfl
    | @time kind unit counts _ hvs =>
      have hcounts : vs.filterMap count? = counts.toList := by
        rw [hvs, List.filterMap_map]
        cases kind <;> simp [Function.comp_def, Value.time, count?]
      rw [hclass rfl, classLayout, Column.layout]
      simp only [hcounts, toArray_map_toList]
      rfl
    | string hk hoffsets hdata =>
      rw [hclass rfl, classLayout, Column.layout, stringLayout, ← hoffsets, ← hdata]
      simp only [toArray_map_toList]
      rfl
    | list hk hoffsets hc =>
      have hinner := hbelow _ (List.mem_singleton_self _) hc
      rw [hclass rfl, classLayout, Column.layout, ← hoffsets]
      simp only [toArray_map_toList, hinner]
      rfl
    | @tuple slots n _ hk hn hc =>
      have hslots := map_layout_slots fun i d (hi : slots[i]? = some d) =>
        hbelow d (List.mem_of_getElem? hi) (hc i d hi)
      rw [hclass rfl, classLayout, Column.layout, layouts_eq_chain, hslots]
    | @record name fields n settled declared _ hk hn hkeys hdistinct hc =>
      -- a record that was never cleared has the fields of the batch, in their order
      have hnames : keys o name vs = fields.map Prod.fst := (hkeys.eq trivial).symm
      have hfields := map_layout_fields fun key d (hmem : (key, d) ∈ fields) =>
        hbelow d (List.mem_map_of_mem hmem) (hc key d hmem)
      rw [hclass rfl, classLayout, Column.layout, fieldLayouts_eq_chain, hfields, ← hnames]

end Batch

namespace Builder

/-- A batch of pushes changes neither the settings nor the annotations. -/
theorem pushAll_eq_ok {b b' : Builder} {ps : List Push} (h : b.pushAll ps = .ok b') :
    b'.options = b.options ∧ b'.parameters = b.parameters := by
  induction ps generalizing b with
  | nil =>
    cases h
    exact ⟨rfl, rfl⟩
  | cons p ps ih =>
    cases hp : b.push p with
    | error r =>
      rw [pushAll_cons_error hp] at h
      cases h
    | ok b₁ =>
      obtain ⟨-, hoptions, hparameters⟩ := push_eq_ok hp
      rw [pushAll_cons_ok hp] at h
      rw [← hoptions, ← hparameters]
      exact ih h

/-- **A builder lays out values like the finished list of them.**  Whatever the order in
which missing values, classes, wider numbers and new fields came up, at whatever depth, the
form and the buffers are those that are read off the list as a whole. -/
theorem layout_extend {o : Options} {vs : List Value} {b : Builder}
    (h : (new o).extend vs = .ok b) (partition : String) :
    b.layout partition = Batch.columnLayout o partition [] 0 vs ∧
      ∀ table, b.toBuffers partition table
        = ((Batch.columnLayout o partition [] 0 vs).form,
            table.store (Batch.columnLayout o partition [] 0 vs).buffers) := by
  have hholds : b.Holds True ⟨vs, []⟩ := Holds.extend h
  obtain ⟨hoptions, hparameters⟩ := pushAll_eq_ok h
  have hlayout : b.layout partition = Batch.columnLayout o partition [] 0 vs := by
    rw [layout, hparameters]
    have hfits := hholds.fits
    rw [hoptions] at hfits
    exact Batch.layout_eq hholds.sound hfits [] 0
  exact ⟨hlayout, fun table => by rw [toBuffers, hlayout]⟩

/-- Values in which everything comes late: the first class after missing values, a wider
number, another class, and a field that older records have not. -/
def lateValues : List Value :=
  [.list [.null, .int 1], .null, .list [.real .one, .bytes [7]],
    .record none [("x", .bool true)], .tuple [.null, .list []],
    .record none [("y", .null), ("x", .list [.int 2])]]

theorem layout_extend_lateValues : ∃ b, (new {}).extend lateValues = .ok b ∧
    b.layout "0" = Batch.columnLayout {} "0" [] 0 lateValues :=
  ⟨_, rfl, (layout_extend rfl "0").1⟩

end Builder

end Columnar
