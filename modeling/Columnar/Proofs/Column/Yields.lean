import Mathlib.Data.List.Infix
import Columnar.Proofs.Column.Bounded
import Columnar.Proofs.Column.Names
import Columnar.Proofs.Form.Yields

/-!
# What the layouts of columns yield

The layout of a column yields the complete values that the column holds, and so does it yield
as many of them as are asked for.  Columns below an open container hold more than that, but
the parts of complete values come first in all of them.

## Main definitions

* `Plain` — annotations that say nothing about strings and records.

## Main results

* `Column.Fits.yields` — **the layout of a column yields the values it holds.**
-/

namespace Columnar

/-- Annotations that say neither that lists are strings nor what records are called. -/
structure Plain (ps : Parameters) : Prop where
  /-- Lists are lists. -/
  array : lookup ps arrayParameter = none
  /-- Records have no name. -/
  record : lookup ps recordParameter = none

theorem plain_nil : Plain [] := ⟨rfl, rfl⟩

namespace Stored

variable {table xs ys : Buffers}

theorem head {e : String × Buffer} (h : Stored table (e :: xs)) : lookup table e.1 = some e.2 :=
  h e List.mem_cons_self

theorem tail {e : String × Buffer} (h : Stored table (e :: xs)) : Stored table xs :=
  fun e he => h e (List.mem_cons_of_mem _ he)

theorem left (h : Stored table (xs ++ ys)) : Stored table xs :=
  fun e he => h e (List.mem_append_left _ he)

theorem right (h : Stored table (xs ++ ys)) : Stored table ys :=
  fun e he => h e (List.mem_append_right _ he)

end Stored

namespace Column

variable {o : Options} {fresh : Prop} {table : Buffers} {partition : String} {ps : Parameters}
  {next : Nat} {vs ws : List Value} {stack : List Unfinished}

open Form (Yields)

/-! ### Values of one column -/

/-- A node of one flat buffer, the elements of which stand for values. -/
theorem yields_flatLayout {α : Type} {primitive : Primitive} {elements : Form.Elements α}
    {g : α → Value} {b : Buffer} {data : Array α}
    (hread : ∀ l n, Form.readFlat table partition (.flat primitive l) primitive n
      = (Form.buffer table partition (.flat primitive l) "data" elements n).map (·.map g))
    (hdata : elements.ofBuffer? b = some data) (hreads : List.Forall₂ Reads vs (data.toList.map g))
    (hst : Stored table (flatLayout partition ps next primitive b).buffers)
    (hroom : ws.length ≤ maxValues) (hws : ws <+: vs) :
    Yields table partition (flatLayout partition ps next primitive b).form ws := by
  have hle : ws.length ≤ data.size := by
    have hlen := hreads.length_eq
    rw [List.length_map, data.length_toList] at hlen
    exact Nat.le_trans hws.length_le (Nat.le_of_eq hlen)
  refine Form.yields_flat (hread _) rfl hst.head hdata hle hroom ?_
  have htake := List.forall₂_take ws.length hreads
  rwa [← List.prefix_iff_eq_take.mp hws, ← List.map_take] at htake

theorem map_ofInt_toInt (f : Int64 → Value) (words : Array Int64) :
    (words.map Int64.toInt).toList.map (fun n => f (Int64.ofInt n)) = words.toList.map f := by
  simp [Function.comp_def]

/-- What is asked for is among the first values that were seen. -/
theorem exists_seen (hws : ws <+: vs) (stack : List Unfinished) :
    ∃ more rest, seen vs stack = (ws ++ more).map Value.class? ++ rest ∧
      vs.length = (ws ++ more).length := by
  obtain ⟨more, rfl⟩ := hws
  refine ⟨more, seen [] stack, ?_, rfl⟩
  have h := seen_append (ws ++ more) [] stack
  rwa [List.append_nil] at h

/-- A column of missing values alone. -/
theorem yields_unknown_layout {n : Nat} (hroom : ws.length ≤ maxValues)
    (hws : ws <+: List.replicate n .null)
    (hst : Stored table ((unknown n).layout partition ps next).buffers) :
    Yields table partition ((unknown n).layout partition ps next).form ws := by
  cases n with
  | zero =>
    rw [List.prefix_nil.mp hws]
    exact Form.yields_empty _
  | succ n =>
    obtain ⟨more, hmore⟩ := hws
    have hplaces : (Array.replicate (n + 1) (-1 : Int)).toList
        = (placesFrom 0 ((ws ++ more).map Value.class?)).map placeInt := by
      rw [hmore, List.map_replicate, Value.class?, placesFrom_replicate_none, List.map_replicate,
        Array.toList_replicate]
      rfl
    have hpresent : Value.present ws = [] := by
      apply List.filter_eq_nil_iff.mpr
      intro v hv
      have hmem : v ∈ List.replicate (n + 1) .null := hmore ▸ List.mem_append_left _ hv
      rw [List.eq_of_mem_replicate hmem]
      exact Bool.false_ne_true
    refine Form.yields_option rfl hst.head hplaces hroom ?_
    rw [hpresent]
    exact Form.yields_empty _

/-- A column of values that may be missing, by the column of the present ones. -/
theorem yields_option_layout {index : Array (Option Nat)} {content : Column}
    (hindex : index.toList = placesFrom 0 (seen vs stack))
    (hlength : (option index content).length = vs.length)
    (hroom : ws.length ≤ maxValues) (hws : ws <+: vs)
    (hst : Stored table ((option index content).layout partition ps next).buffers)
    (hc : Yields table partition (content.layout partition [] (next + 1)).form
      (Value.present ws)) :
    Yields table partition ((option index content).layout partition ps next).form ws := by
  obtain ⟨more, rest, hseen, hlen⟩ := exists_seen hws stack
  have hplaces : ((index.take (option index content).length).map placeInt).toList
      = (placesFrom 0 ((ws ++ more).map Value.class?)).map placeInt := by
    rw [hlength, Array.toList_map, toList_take, hindex, hseen, placesFrom_append,
      List.take_left' (by simp [hlen])]
  exact Form.yields_option rfl hst.head hplaces hroom hc

/-- A column of lists, by the column of their items. -/
theorem yields_list_layout {offsets : Array Nat} {content : Column} {isOpen : Bool}
    (hps : Plain ps) (hk : ∀ v ∈ ws, v.class? = some .list)
    (hoffsets : offsets.toList = offsetsFrom 0 (vs.map fun v => v.items.length))
    (hroom : ws.length ≤ maxValues) (hws : ws <+: vs)
    (hst : Stored table ((list offsets content isOpen).layout partition ps next).buffers)
    (hc : Yields table partition (content.layout partition [] (next + 1)).form
      (ws.flatMap Value.items)) :
    Yields table partition ((list offsets content isOpen).layout partition ps next).form ws := by
  obtain ⟨more, rfl⟩ := hws
  refine Form.yields_list hk ?_ rfl hst.head hoffsets hroom hc
  rw [Form.stringKind?_list, hps.array]
  rfl

/-- A column of strings. -/
theorem yields_string_layout {encoding : Encoding} {offsets : Array Nat} {data : Array UInt8}
    (hk : ∀ v ∈ ws, v.class? = some (.string encoding))
    (hoffsets : offsets.toList = offsetsFrom 0 (vs.map fun v => v.data.length))
    (hdata : data.toList = vs.flatMap Value.data) (hroom : ws.length ≤ maxValues)
    (hws : ws <+: vs)
    (hst : Stored table ((string encoding offsets data).layout partition ps next).buffers) :
    Yields table partition ((string encoding offsets data).layout partition ps next).form ws := by
  obtain ⟨more, rfl⟩ := hws
  refine Form.yields_string hk ?_ rfl rfl hst.head hst.tail.head hoffsets hdata hroom
  rw [Form.stringKind?_list, lookup_assign_self]
  exact Encoding.ofArrayName?_arrayName encoding

/-! ### Values of several columns -/

/-- What the layouts of several columns yield, each of them wherever its nodes are numbered. -/
theorem yields_layouts {cs : List Column} {parts : List (List Value)}
    (h : List.Forall₂ (fun c part => ∀ next, Stored table (c.layout partition [] next).buffers →
      Yields table partition (c.layout partition [] next).form part) cs parts)
    (hst : Stored table (layouts partition next cs).buffers) :
    List.Forall₂ (Yields table partition) (layouts partition next cs).forms parts := by
  induction h generalizing next with
  | nil => exact .nil
  | cons hc _ ih => exact .cons (hc next hst.left) (ih hst.right)

/-- A column of tuples, by the columns of the slots. -/
theorem yields_tuple_layout {slots : List Column} {n : Nat} {filling : Filling}
    (hk : ∀ v ∈ ws, v.class? = some (.tuple slots.length)) (hroom : ws.length ≤ maxValues)
    (hst : Stored table ((tuple slots n filling).layout partition ps next).buffers)
    (hc : ∀ i c, slots[i]? = some c → ∀ next, Stored table (c.layout partition [] next).buffers →
      Yields table partition (c.layout partition [] next).form (ws.filterMap (Value.slot? i))) :
    Yields table partition ((tuple slots n filling).layout partition ps next).form ws := by
  have hslot := filterMap_slot hk
  have hparts : List.Forall₂ (Yields table partition) (layouts partition (next + 1) slots).forms
      ((List.range slots.length).map fun i => ws.filterMap (Value.slot? i)) := by
    refine yields_layouts (List.forall₂_iff_get.mpr ⟨by simp, ?_⟩) hst
    intro i hi hi'
    simpa using hc i _ (List.getElem?_eq_getElem hi)
  refine Form.yields_tuple hparts ?_ hroom ?_
  · intro part hpart
    obtain ⟨i, -, rfl⟩ := List.mem_map.mp hpart
    rw [hslot, List.length_map]
  · intro i v hv
    have hclass := hk v (List.mem_of_getElem? hv)
    cases v with
    | tuple items =>
      have hlen : items.length = slots.length := ElementClass.tuple.inj (Option.some.inj hclass)
      rw [List.map_map]
      refine congrArg Value.tuple (List.ext_getElem (by simpa using hlen) ?_)
      intro j hj _
      simp [hslot, hv, Value.slot?, hj]
    | _ => cases hclass

/-- A column of records, by the columns of the fields. -/
theorem yields_record_layout {name : Option String} {fields : List (String × Column)} {n : Nat}
    {filling : Filling} {settled declared : Bool} (hps : Plain ps)
    (hnd : (fields.map Prod.fst).Nodup) (hk : ∀ v ∈ ws, v.class? = some (.record name))
    (hdistinct : ∀ v ∈ ws, v.keys.Nodup)
    (hkeys : ∀ v ∈ ws, ∀ key ∈ v.keys, key ∈ fields.map Prod.fst) (hroom : ws.length ≤ maxValues)
    (hst : Stored table
      ((record name fields n filling settled declared).layout partition ps next).buffers)
    (hc : ∀ key c, (key, c) ∈ fields → ∀ next, Stored table (c.layout partition [] next).buffers →
      Yields table partition (c.layout partition [] next).form
        (ws.filterMap (Value.field? key))) :
    Yields table partition
      ((record name fields n filling settled declared).layout partition ps next).form ws := by
  have hfield := filterMap_field hk
  have hname : (lookup (recordParameters ps name) recordParameter).bind Document.asString?
      = name := by
    cases name with
    | none => rw [recordParameters, hps.record]; rfl
    | some name => rw [recordParameters, lookup_assign_self]; rfl
  rw [layout, fieldLayouts_eq] at hst ⊢
  have hparts : List.Forall₂ (Yields table partition)
      (layouts partition (next + 1) (columnsOf fields)).forms
      (fields.map fun f => ws.filterMap (Value.field? f.1)) := by
    refine yields_layouts ?_ hst
    rw [columnsOf, List.forall₂_map_left_iff, List.forall₂_map_right_iff]
    exact List.forall₂_same.mpr fun f hf => hc f.1 f.2 hf
  refine Form.yields_record hname hnd hparts ?_ hroom ?_
  · intro part hpart
    obtain ⟨f, -, rfl⟩ := List.mem_map.mp hpart
    rw [hfield, List.length_map]
  · intro i v hv
    have hmem := List.mem_of_getElem? hv
    have hclass := hk v hmem
    cases v with
    | record name' entries =>
      cases hclass
      refine ⟨entries, rfl, hdistinct _ hmem, hkeys _ hmem, ?_⟩
      rw [List.map_map, List.map_map]
      apply List.map_congr_left
      intro f _
      simp [hfield, hv, Value.field?]
    | _ => cases hclass

/-- A union, by the columns of its classes. -/
theorem yields_union_layout {tags index : Array Nat} {children : List Column}
    {current : Option Nat} (hnd : (children.map class?).Nodup)
    (htags : tags.toList = (seen vs stack).map (children.map class?).idxOf)
    (hindex : index.toList = ranks (seen vs stack))
    (hmem : ∀ v ∈ ws, v.class? ∈ children.map class?)
    (hlength : (union tags index children current).length = vs.length)
    (hroom : ws.length ≤ maxValues) (hws : ws <+: vs)
    (hst : Stored table ((union tags index children current).layout partition ps next).buffers)
    (hc : ∀ c ∈ children, ∀ next, Stored table (c.layout partition [] next).buffers →
      Yields table partition (c.layout partition [] next).form (Value.ofClass c.class? ws)) :
    Yields table partition ((union tags index children current).layout partition ps next).form
      ws := by
  obtain ⟨more, rest, hseen, hlen⟩ := exists_seen hws stack
  have hparts : List.Forall₂ (Yields table partition)
      (layouts partition (next + 1) children).forms
      ((children.map class?).map (Value.ofClass · ws)) := by
    refine yields_layouts ?_ hst.tail.tail
    rw [List.map_map, List.forall₂_map_right_iff]
    exact List.forall₂_same.mpr hc
  have hn := hlength.trans hlen
  have htags' : ((tags.take (union tags index children current).length).map Int.ofNat).toList
      = ((ws ++ more).map Value.class?).map fun k => ((children.map class?).idxOf k : Int) := by
    rw [hn, Array.toList_map, toList_take, htags, hseen, List.map_append,
      List.take_left' (by simp), List.map_map]
    rfl
  have hindex' : ((index.take (union tags index children current).length).map Int.ofNat).toList
      = (ranks ((ws ++ more).map Value.class?)).map Int.ofNat := by
    rw [hn, Array.toList_map, toList_take, hindex, hseen, ranks, ranksAfter_append,
      List.take_left' (by simp)]
    rfl
  exact Form.yields_union hnd hmem hroom rfl hst.head hst.tail.head htags' hindex' hparts

/-! ### Columns -/

/-- **The layout of a column yields the values it holds**, and any number of the first of
them, as long as no node has more elements than there is memory for as values. -/
theorem Fits.yields {c : Column} {n : Nat} (hn : n ≤ maxValues)
    (h : Fits o fresh c vs stack) (hs : c.Sound) (hb : c.Bounded n) (hps : Plain ps)
    (hst : Stored table (c.layout partition ps next).buffers) (hws : ws <+: vs) :
    Yields table partition (c.layout partition ps next).form ws := by
  induction c using Column.induct generalizing ps next vs ws stack with
  | node c ih =>
    have hlength := h.length
    have hroom : ws.length ≤ maxValues := by
      have hle := hb.length
      have hfirst := hws.length_le
      omega
    -- parts of the values asked for are the first ones of what the columns below hold
    have hbelow : ∀ d ∈ c.children, ∀ {vs ws : List Value} {stack : List Unfinished},
        Fits o fresh d vs stack → ws <+: vs → ∀ next,
        Stored table (d.layout partition [] next).buffers →
        Yields table partition (d.layout partition [] next).form ws :=
      fun d hd _ _ _ hfit hws next hst =>
        ih d hd hfit (hs.children d hd) (hb.children hd) plain_nil hst hws
    have hclass : ∀ {k : ElementClass}, c.class? = some k → ∀ v ∈ ws, v.class? = some k :=
      fun hk v hv => h.all_class hk _ (class?_mem_seen (hws.subset hv) stack)
    cases h with
    | unknown m => exact yields_unknown_layout hroom hws hst
    | @option index content _ _ hindex _ hc =>
      have hmem : content ∈ (Column.option index content).children := List.mem_singleton_self _
      exact yields_option_layout hindex hlength hroom hws hst
        (hbelow content hmem hc (hws.filter _) _ hst.tail)
    | bool hvs => exact yields_flatLayout (fun _ _ => rfl) rfl (hvs ▸ reads_self _) hst hroom hws
    | int64 hvs =>
      exact yields_flatLayout (fun _ _ => rfl) rfl
        (by rw [map_ofInt_toInt, hvs]; exact reads_self _) hst hroom hws
    | float64 hvs =>
      exact yields_flatLayout (fun _ _ => rfl) rfl (reads_map reads_of_toReal? hvs) hst hroom hws
    | complex128 hvs =>
      exact yields_flatLayout (fun _ _ => rfl) rfl (reads_map reads_of_toComplex? hvs) hst hroom hws
    | @time kind unit counts _ hvs =>
      exact yields_flatLayout (fun _ _ => rfl) rfl
        (by rw [map_ofInt_toInt (Value.time kind · unit), hvs]; exact reads_self _) hst hroom hws
    | string _ hoffsets hdata =>
      exact yields_string_layout (hclass rfl) hoffsets hdata hroom hws hst
    | @list offsets content _ _ hoffsets hc =>
      exact yields_list_layout hps (hclass rfl) hoffsets hroom hws hst
        (hbelow content (List.mem_singleton_self _) hc (List.IsPrefix.flatMap hws _) _ hst.tail)
    | @list_open offsets content _ items inner _ hoffsets hc =>
      exact yields_list_layout hps (hclass rfl) hoffsets hroom hws hst
        (hbelow content (List.mem_singleton_self _) hc
          ((List.IsPrefix.flatMap hws _).trans (List.prefix_append _ _)) _ hst.tail)
    | tuple _ _ hc =>
      exact yields_tuple_layout (hclass rfl) hroom hst fun i c hi =>
        hbelow c (List.mem_of_getElem? hi) (hc i c hi) (hws.filterMap _)
    | tuple_open _ _ _ hc =>
      exact yields_tuple_layout (hclass rfl) hroom hst fun i c hi =>
        hbelow c (List.mem_of_getElem? hi) (hc i c hi)
          ((hws.filterMap _).trans (List.prefix_append _ _))
    | record _ _ hkeys hdistinct hc =>
      refine yields_record_layout hps hs.node.2 (hclass rfl)
        (fun v hv => hdistinct v (hws.subset hv))
        (fun v hv key hkey => hkeys.mem key (List.mem_flatMap.mpr ⟨v, hws.subset hv, hkey⟩)) hroom
        hst fun key c hmem => hbelow c (List.mem_map_of_mem hmem) (hc key c hmem) (hws.filterMap _)
    | record_open _ _ hkeys hdistinct _ _ _ _ hc =>
      refine yields_record_layout hps hs.node.2 (hclass rfl)
        (fun v hv => hdistinct v (hws.subset hv))
        (fun v hv key hkey => hkeys.mem key (List.mem_append_left _
          (List.mem_flatMap.mpr ⟨v, hws.subset hv, hkey⟩))) hroom hst
        fun key c hmem => hbelow c (List.mem_map_of_mem hmem) (hc key c hmem)
          ((hws.filterMap _).trans (List.prefix_append _ _))
    | union htags hindex hmem _ _ hc =>
      exact yields_union_layout hs.node.distinct htags hindex
        (fun v hv => hmem _ (class?_mem_seen (hws.subset hv) stack)) hlength hroom hws hst
        fun c hcmem => hbelow c hcmem (hc c hcmem) (hws.filter _)

end Column

end Columnar
