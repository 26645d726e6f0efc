import Columnar.Proofs.Form.Reads

/-!
# What the nodes of a form yield

A node yields values if its buffers are there and the nodes below it yield the parts of the
values.  What is stored may go on after what is asked for: every node reads the beginning of
its buffers, and of the nodes below it no more than that refers to.

## Main definitions

* `Form.Yields` — the first elements of an array are there, and values are read back as them.

## Main results

* `Form.yields_flat`, `Form.yields_option`, `Form.yields_list`, `Form.yields_string`,
  `Form.yields_tuple`, `Form.yields_record`, `Form.yields_union` — by the kind of the node.
-/

namespace Columnar.Form

variable {table : Buffers} {partition : String}

/-- The first elements of an array are there, and values are read back as them. -/
def Yields (table : Buffers) (partition : String) (f : Form) (vs : List Value) : Prop :=
  ∃ out, readColumn table partition f vs.length = .ok out ∧ List.Forall₂ Reads vs out.toList

theorem yields_empty (l : FormLabel) : Yields table partition (.empty l) [] :=
  ⟨#[], readColumn_empty table partition l, .nil⟩

/-! ### As many values as there is memory for -/

/-- So many values can be counted by a signed word. -/
theorem maxValues_le_maxInt64 {n : Nat} (h : n ≤ maxValues) : (n : Int) ≤ maxInt64 := by
  have hmax : (maxValues : Int) ≤ maxInt64 := by decide
  omega

/-- For so many lists there is a number of offsets. -/
theorem succ_lt_sizeBound {n : Nat} (h : n ≤ maxValues) : n + 1 < sizeBound := by
  have hmax : maxValues + 1 < sizeBound := by decide
  omega

/-! ### Flat buffers and places -/

/-- A flat buffer, read by way of some type of elements. -/
theorem yields_flat {α : Type} {primitive : Primitive} {l : FormLabel} {key : String}
    {elements : Elements α} {g : α → Value} {b : Buffer} {data : Array α} {vs : List Value}
    (hread : ∀ n, readFlat table partition (.flat primitive l) primitive n
      = (buffer table partition (.flat primitive l) "data" elements n).map (·.map g))
    (hkey : l.key? = some key) (hb : lookup table (bufferName partition key "data") = some b)
    (hdata : elements.ofBuffer? b = some data) (hle : vs.length ≤ data.size)
    (hroom : vs.length ≤ maxValues)
    (h : List.Forall₂ Reads vs ((data.toList.take vs.length).map g)) :
    Yields table partition (.flat primitive l) vs := by
  refine ⟨(data.take vs.length).map g, ?_, by simpa using h⟩
  rw [readColumn, hread, buffer_eq_ok (f := .flat primitive l) hkey hb hdata hle]
  exact ensure_bind hroom _

/-- Elements that may be missing. -/
theorem yields_option {width : IndexWidth} {content : Form} {l : FormLabel} {key : String}
    {index : Array Int} {vs more : List Value} (hkey : l.key? = some key)
    (hb : lookup table (bufferName partition key "index") = some (.int64 index))
    (hindex : index.toList
      = (placesFrom 0 ((vs ++ more).map Value.class?)).map Column.placeInt)
    (hroom : vs.length ≤ maxValues) (hc : Yields table partition content (Value.present vs)) :
    Yields table partition (.option width content l) vs := by
  obtain ⟨items, hitems, hreads⟩ := hc
  have hmax : ((Value.present vs).length : Int) ≤ maxInt64 :=
    maxValues_le_maxInt64 (Nat.le_trans (List.length_filter_le _ _) hroom)
  have hle : vs.length ≤ index.size := by
    rw [← Array.length_toList, hindex]
    simp
  have htake : (index.take vs.length).toList
      = (placesFrom 0 (vs.map Value.class?)).map Column.placeInt := by
    rw [toList_take, hindex, List.map_append, placesFrom_append, List.map_append]
    exact List.take_left' (by simp)
  have hsize := sizeOfPlaces_placesFrom partition (.option width content l) "index"
    (vs.map Value.class?) 0 (by rwa [Value.length_reduceOption_map_class?, Nat.zero_add])
  rw [Value.length_reduceOption_map_class?, Nat.zero_add] at hsize
  refine ⟨(index.take vs.length).map (itemAt items), ?_, ?_⟩
  · rw [readColumn, buffer_eq_ok (f := .option width content l) hkey hb rfl hle]
    simp only [ok_bind, htake, hsize, hitems]
    exact ensure_bind hroom _
  · rw [Array.toList_map, htake]
    exact reads_itemAt [] rfl hreads

/-! ### Offsets -/

/-- The offsets of the first values are read, `size` being the size of a value. -/
theorem readOffsets_eq_ok {f : Form} {key : String} {offsets : Array Nat} {size : Value → Nat}
    {vs more : List Value} (hkey : f.key? = some key)
    (hb : lookup table (bufferName partition key "offsets") = some (Column.sizesBuffer offsets))
    (hoffsets : offsets.toList = offsetsFrom 0 ((vs ++ more).map size))
    (hroom : vs.length ≤ maxValues) :
    readOffsets table partition f vs.length
      = .ok ((offsetsFrom 0 (vs.map size)).map Int.ofNat).toArray := by
  have hle : vs.length + 1 ≤ (offsets.map Int.ofNat).size := by
    rw [Array.size_map, ← Array.length_toList, hoffsets]
    simp
  have htake : ((offsets.map Int.ofNat).take (vs.length + 1)).toList
      = (offsetsFrom 0 (vs.map size)).map Int.ofNat := by
    have h := take_offsetsFrom (vs.map size) (more.map size) 0
    rw [List.length_map, ← List.map_append] at h
    rw [toList_take, Array.toList_map, hoffsets, ← List.map_take, h]
  have hfirst : firstDescent? 0 ((offsetsFrom 0 (vs.map size)).map Int.ofNat) = none :=
    firstDescent?_offsetsFrom _ (Int.le_refl _)
  rw [readOffsets, Nat.mod_eq_of_lt (succ_lt_sizeBound hroom), buffer_eq_ok hkey hb rfl hle,
    ok_bind, htake, hfirst]
  exact congrArg Except.ok (Array.toList_inj.mp htake)

/-- The last offset is the size of all values. -/
theorem getElem?_offsets (size : Value → Nat) (vs : List Value) :
    ((offsetsFrom 0 (vs.map size)).map Int.ofNat).toArray[vs.length]?
      = some (Int.ofNat (vs.map size).sum) := by
  have hlast := getElem?_offsetsFrom (vs.map size) 0
  rw [List.length_map, Nat.zero_add] at hlast
  rw [List.getElem?_toArray, List.getElem?_map, hlast]
  rfl

theorem stringKind?_list (width : IndexWidth) (content : Form) (l : FormLabel) :
    (list width content l).stringKind?
      = ((lookup l.parameters arrayParameter).bind Document.asString?).bind
        Encoding.ofArrayName? := rfl

/-- Lists. -/
theorem yields_list {width : IndexWidth} {content : Form} {l : FormLabel} {key : String}
    {offsets : Array Nat} {vs more : List Value} (hk : ∀ v ∈ vs, v.class? = some .list)
    (hkind : (Form.list width content l).stringKind? = none) (hkey : l.key? = some key)
    (hb : lookup table (bufferName partition key "offsets") = some (Column.sizesBuffer offsets))
    (hoffsets : offsets.toList = offsetsFrom 0 ((vs ++ more).map fun v => v.items.length))
    (hroom : vs.length ≤ maxValues)
    (hc : Yields table partition content (vs.flatMap Value.items)) :
    Yields table partition (.list width content l) vs := by
  obtain ⟨items, hitems, hreads⟩ := hc
  rw [List.length_flatMap] at hitems
  obtain ⟨outs, hflatten, houts⟩ := reads_flatMap hreads
  have hread := readOffsets_eq_ok (f := .list width content l) hkey hb hoffsets hroom
  -- lists are read back as long as they are, so offsets cut the items where the lists end
  have hlengths : (vs.map fun v => v.items.length) = outs.map List.length := by
    refine List.forall₂_eq_eq_eq ▸ ?_
    rw [List.forall₂_map_left_iff, List.forall₂_map_right_iff]
    exact houts.imp fun v zs h => h.length_eq
  have hlists : (spans ((offsetsFrom 0 (vs.map fun v => v.items.length)).map Int.ofNat)).map
      (fun s => Value.list (slice items s)) = outs.map .list := by
    have hslices : (spans ((offsetsFrom 0 (outs.map List.length)).map Int.ofNat)).map
        (slice items) = outs := map_slice_spans outs [] hflatten
    have hmap := congrArg (List.map Value.list) hslices
    rw [List.map_map] at hmap
    rw [hlengths]
    exact hmap
  refine ⟨(outs.map Value.list).toArray, ?_, ?_⟩
  · rw [readColumn, hread, ok_bind, getElem?_offsets]
    simp only [hkind, Int.ofNat_eq_natCast, Int.toNat_natCast, hitems, ok_bind]
    rw [hlists]
    exact ensure_bind hroom _
  · rw [List.forall₂_map_right_iff]
    refine ((List.forall₂_and_left vs outs).mpr ⟨hk, houts⟩).imp fun v zs h => ?_
    obtain ⟨hv, hzs⟩ := h
    cases v with
    | list items => exact .list hzs
    | _ => cases hv

/-- Strings of an encoding, one after the other. -/
theorem mapM_readString {content : Form} {encoding : Encoding} {bytes : Array UInt8}
    {vs : List Value} (hk : ∀ v ∈ vs, v.class? = some (.string encoding))
    {ss : List (Nat × Nat)} (h : ss.map (slice bytes) = vs.map Value.data) :
    ss.mapM (readString partition content (encoding == .utf8) bytes) = .ok vs := by
  induction vs generalizing ss with
  | nil =>
    rw [List.map_nil, List.map_eq_nil_iff] at h
    rw [h]
    rfl
  | cons v vs ih =>
    cases ss with
    | nil => cases h
    | cons s ss =>
      obtain ⟨hv, hvs⟩ := List.cons.inj h
      have hread : readString partition content (encoding == .utf8) bytes s = .ok v := by
        have hclass := hk v List.mem_cons_self
        rw [readString, hv]
        cases v with
        | string t =>
          cases hclass
          simp [Value.data]
        | bytes data =>
          cases hclass
          rfl
        | _ => cases hclass
      rw [List.mapM_cons, hread, ok_bind, ih (fun u hu => hk u (List.mem_cons_of_mem _ hu)) hvs]
      rfl

/-- Strings. -/
theorem yields_string {width : IndexWidth} {content : Form} {l : FormLabel} {key key' : String}
    {encoding : Encoding} {offsets : Array Nat} {data : Array UInt8} {vs more : List Value}
    (hk : ∀ v ∈ vs, v.class? = some (.string encoding))
    (hkind : (Form.list width content l).stringKind? = some encoding) (hkey : l.key? = some key)
    (hkey' : content.key? = some key')
    (hb : lookup table (bufferName partition key "offsets") = some (Column.sizesBuffer offsets))
    (hb' : lookup table (bufferName partition key' "data") = some (.uint8 data))
    (hoffsets : offsets.toList = offsetsFrom 0 ((vs ++ more).map fun v => v.data.length))
    (hdata : data.toList = (vs ++ more).flatMap Value.data) (hroom : vs.length ≤ maxValues) :
    Yields table partition (.list width content l) vs := by
  have hread := readOffsets_eq_ok (f := .list width content l) hkey hb hoffsets hroom
  have hle : (vs.map fun v => v.data.length).sum ≤ data.size := by
    rw [← List.length_flatMap, ← Array.length_toList, hdata, List.flatMap_append,
      List.length_append]
    exact Nat.le_add_right _ _
  have htake : (data.take (vs.map fun v => v.data.length).sum).toList
      = (vs.map Value.data).flatten := by
    rw [toList_take, hdata, List.flatMap_append, ← List.length_flatMap, List.take_left]
    rfl
  have hbytes : content.buffer table partition "data" .uint8 (vs.map fun v => v.data.length).sum
      = .ok (data.take (vs.map fun v => v.data.length).sum) := buffer_eq_ok hkey' hb' rfl hle
  have hslices : (spans ((offsetsFrom 0 (vs.map fun v => v.data.length)).map Int.ofNat)).map
      (slice (data.take (vs.map fun v => v.data.length).sum)) = vs.map Value.data := by
    have h := map_slice_spans (vs.map Value.data) [] htake
    rwa [List.map_map] at h
  refine ⟨vs.toArray, ?_, reads_self vs⟩
  rw [readColumn, hread, ok_bind, getElem?_offsets]
  simp only [hkind, Int.ofNat_eq_natCast, Int.toNat_natCast, hbytes, ok_bind]
  rw [mapM_readString hk hslices]
  exact ensure_bind hroom _

/-! ### Several columns -/

/-- Columns from which several parts are read back. -/
abbrev Parts (parts : List (List Value)) (columns : List (Array Value)) : Prop :=
  List.Forall₂ (fun part out => List.Forall₂ Reads part out.toList) parts columns

theorem exists_readSized {fs : List Form} {parts : List (List Value)}
    (h : List.Forall₂ (Yields table partition) fs parts) :
    ∃ columns, readSized table partition fs (parts.map List.length) = .ok columns ∧
      Parts parts columns := by
  induction h with
  | nil => exact ⟨[], by simp [readSized], .nil⟩
  | cons hf _ ih =>
    obtain ⟨out, hout, hreads⟩ := hf
    obtain ⟨columns, hcolumns, hparts⟩ := ih
    refine ⟨out :: columns, ?_, .cons hreads hparts⟩
    rw [List.map_cons, readSized, hout, ok_bind, hcolumns]
    rfl

theorem readColumns_eq_readSized (fs : List Form) (n : Nat) :
    readColumns table partition fs n
      = readSized table partition fs (List.replicate fs.length n) := by
  induction fs with
  | nil => simp [readColumns, readSized]
  | cons f fs ih => rw [readColumns, List.length_cons, List.replicate_succ, readSized, ih]

theorem exists_readColumns {fs : List Form} {parts : List (List Value)} {n : Nat}
    (h : List.Forall₂ (Yields table partition) fs parts) (hn : ∀ part ∈ parts, part.length = n) :
    ∃ columns, readColumns table partition fs n = .ok columns ∧ Parts parts columns := by
  have hsizes : List.replicate fs.length n = parts.map List.length := by
    rw [eq_comm, List.eq_replicate_iff, List.length_map]
    refine ⟨h.length_eq.symm, ?_⟩
    intro m hm
    obtain ⟨part, hpart, rfl⟩ := List.mem_map.mp hm
    exact hn part hpart
  rw [readColumns_eq_readSized, hsizes]
  exact exists_readSized h

/-- Tuples, the values in a slot being a part. -/
theorem yields_tuple {contents : List Form} {l : FormLabel} {parts : List (List Value)}
    {vs : List Value} (hc : List.Forall₂ (Yields table partition) contents parts)
    (hlen : ∀ part ∈ parts, part.length = vs.length) (hroom : vs.length ≤ maxValues)
    (hrows : ∀ (i : Nat) (v : Value), vs[i]? = some v →
      v = .tuple (parts.map fun part => (part[i]?).getD .null)) :
    Yields table partition (.record contents none l) vs := by
  obtain ⟨columns, hcolumns, hparts⟩ := exists_readColumns hc hlen
  refine ⟨_, by rw [readColumn, hcolumns]; exact ensure_bind hroom _, reads_range ?_⟩
  intro i v hv
  rw [hrows i v hv]
  exact .tuple (reads_row hparts i)

/-- A record that has a field for every key of `keys`. -/
theorem reads_record {name : Option String} {fields : List (String × Value)} {keys : List String}
    {out : List Value} (hfields : (fields.map Prod.fst).Nodup) (hkeys : keys.Nodup)
    (hmem : ∀ key ∈ fields.map Prod.fst, key ∈ keys)
    (h : List.Forall₂ Reads (keys.map fun key => (lookup fields key).getD .null) out) :
    Reads (.record name fields) (.recordOf name (keys.zip out)) := by
  have hlen := h.length_eq
  rw [List.length_map] at hlen
  have hout : (keys.zip out).map Prod.fst = keys := List.map_fst_zip (Nat.le_of_eq hlen)
  rw [List.forall₂_map_left_iff] at h
  rw [Value.recordOf, tableOf_of_nodup (by rwa [hout])]
  refine .record hfields (by rwa [hout]) (by rwa [hout]) ?_
    ?_
  · intro key v w hv hw
    have hread := List.forall₂_zip h hw
    rwa [lookup_of_mem hfields hv] at hread
  · intro key w hw hnot
    have hread := List.forall₂_zip h hw
    rw [lookup_eq_none_iff.mpr hnot] at hread
    exact reads_null hread

/-- Records, the values of a field being a part. -/
theorem yields_record {contents : List Form} {keys : List String} {name : Option String}
    {l : FormLabel} {parts : List (List Value)} {vs : List Value}
    (hname : (lookup l.parameters recordParameter).bind Document.asString? = name)
    (hkeys : keys.Nodup) (hc : List.Forall₂ (Yields table partition) contents parts)
    (hlen : ∀ part ∈ parts, part.length = vs.length) (hroom : vs.length ≤ maxValues)
    (hrows : ∀ (i : Nat) (v : Value), vs[i]? = some v → ∃ fields, v = .record name fields ∧
      (fields.map Prod.fst).Nodup ∧ (∀ key ∈ fields.map Prod.fst, key ∈ keys) ∧
      (parts.map fun part => (part[i]?).getD .null)
        = keys.map fun key => (lookup fields key).getD .null) :
    Yields table partition (.record contents (some keys) l) vs := by
  obtain ⟨columns, hcolumns, hparts⟩ := exists_readColumns hc hlen
  refine ⟨_, by rw [readColumn, hcolumns]; exact ensure_bind hroom _, reads_range ?_⟩
  intro i v hv
  obtain ⟨fields, rfl, hfields, hmem, hrow⟩ := hrows i v hv
  rw [hname]
  refine reads_record hfields hkeys hmem ?_
  rw [← hrow]
  exact reads_row hparts i

/-- Values of several classes, those of a class being a part. -/
theorem yields_union {tagWidth width : IndexWidth} {contents : List Form} {l : FormLabel}
    {key : String} {tags index : Array Int} {ks : List (Option ElementClass)}
    {vs more : List Value} (hks : ks.Nodup) (hmem : ∀ v ∈ vs, v.class? ∈ ks)
    (hroom : vs.length ≤ maxValues) (hkey : l.key? = some key)
    (htags : lookup table (bufferName partition key "tags") = some (.int8 tags))
    (hindex : lookup table (bufferName partition key "index") = some (.int64 index))
    (htagsEq : tags.toList = ((vs ++ more).map Value.class?).map fun k => (ks.idxOf k : Int))
    (hindexEq : index.toList = (ranks ((vs ++ more).map Value.class?)).map Int.ofNat)
    (hc : List.Forall₂ (Yields table partition) contents (ks.map (Value.ofClass · vs))) :
    Yields table partition (.union tagWidth width contents l) vs := by
  obtain ⟨columns, hcolumns, hparts⟩ := exists_readSized hc
  have hle : vs.length ≤ tags.size ∧ vs.length ≤ index.size := by
    rw [← Array.length_toList, ← Array.length_toList, htagsEq, hindexEq]
    simp [ranks]
  -- only the tags and places of the values asked for are read
  have hentries : (tags.take vs.length).toList.zip (index.take vs.length).toList
      = entriesAfter ks [] (vs.map Value.class?) := by
    rw [toList_take, toList_take, htagsEq, hindexEq, ranks, List.map_append, ranksAfter_append,
      List.map_append, List.map_append, List.take_left' (by simp), List.take_left' (by simp)]
    rfl
  have hstart : contents.map (fun _ => 0) = ks.map ([] : List (Option ElementClass)).count := by
    have hlen := hc.length_eq
    rw [List.length_map] at hlen
    refine List.ext_getElem (by simpa using hlen) ?_
    intro i _ _
    simp
  have hsizes := sizesOfTagged_entriesAfter partition (.union tagWidth width contents l) hks
    (vs.map Value.class?) [] fun k hk => by
      obtain ⟨v, hv, rfl⟩ := List.mem_map.mp hk
      exact hmem v hv
  have hcounts : (ks.map (Value.ofClass · vs)).map List.length
      = ks.map ([] ++ vs.map Value.class?).count := by
    rw [List.map_map, List.nil_append]
    exact List.map_congr_left fun k _ => (count_map_class? k vs).symm
  rw [hcounts] at hcolumns
  refine ⟨((entriesAfter ks [] (vs.map Value.class?)).map (taggedItem columns)).toArray, ?_, ?_⟩
  · rw [readColumn, buffer_eq_ok (f := .union tagWidth width contents l) hkey htags rfl hle.1,
      buffer_eq_ok (f := .union tagWidth width contents l) hkey hindex rfl hle.2]
    simp only [ok_bind, hentries, hstart, hsizes, hcolumns]
    exact ensure_bind hroom _
  · rw [Parts, List.forall₂_map_left_iff] at hparts
    exact reads_taggedItem vs [] hparts hmem

end Columnar.Form
