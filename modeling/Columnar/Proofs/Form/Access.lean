import Columnar.Proofs.Form.Yields

/-!
# Single elements of an array

A form says where each element of an array is, one by one: the element of a flat buffer at a
place, the items between two offsets, the content at a place, the child of a tag, and a row of
the contents.  Reading whole columns comes to the same: as many elements as were asked for,
each of them the one that its place leads to.

## Main definitions

* `lastEntries` — entries under their first places, with the values that came last.
* `Form.valueAt?` — the element at a place, by random access.
* `Form.Shows` — a column is that of the first elements.

## Main results

* `tableOf_eq_lastEntries` — a table has the value that came last under every key.
* `Form.readColumn_shows` — **a column that is read has each element that random access
  leads to.**
-/

namespace Columnar

/-! ### Repeated keys -/

/-- The keys in the order in which they first come, each with the value that comes last. -/
def lastEntries {α : Type} (entries : List (String × α)) : List (String × α) :=
  (entries.map Prod.fst).eraseDups.filterMap fun key =>
    (lookup entries.reverse key).map (Prod.mk key)

theorem lookup_assign {α : Type} (t : List (String × α)) (key : String) (value : α)
    (other : String) :
    lookup (assign t key value) other = if key = other then some value else lookup t other := by
  split
  · next h => rw [← h, lookup_assign_self]
  · next h => rw [lookup_assign_of_ne t value h]

theorem lookup_tableOf {α : Type} (entries : List (String × α)) (key : String) :
    lookup (tableOf entries) key = lookup entries.reverse key := by
  induction entries using List.reverseRecOn with
  | nil => rfl
  | append_singleton entries e ih =>
    rw [tableOf, List.foldl_append, List.foldl_cons, List.foldl_nil, ← tableOf, lookup_assign, ih,
      List.reverse_append]
    rfl

/-- Entries under different keys are found one after the other. -/
theorem filterMap_lookup {α : Type} {t : List (String × α)} (h : (t.map Prod.fst).Nodup) :
    ((t.map Prod.fst).filterMap fun key => (lookup t key).map (Prod.mk key)) = t := by
  rw [List.filterMap_map]
  refine (List.filterMap_congr (g := some) fun e he => ?_).trans List.filterMap_some
  simp [lookup_of_mem h he]

/-- A table has its keys in the order in which they first came, each with its last value. -/
theorem tableOf_eq_lastEntries {α : Type} (entries : List (String × α)) :
    tableOf entries = lastEntries entries := by
  rw [← filterMap_lookup (nodup_keys_tableOf entries), keys_tableOf, lastEntries]
  simp only [lookup_tableOf]

namespace Form

/-! ### The contents of a form -/

/-- The forms directly below a form. -/
def contents : Form → List Form
  | .list _ content _ => [content]
  | .option _ content _ => [content]
  | .record contents _ _ => contents
  | .union _ _ contents _ => contents
  | _ => []

theorem sizeOf_lt_of_mem_contents {f g : Form} (h : g ∈ f.contents) : sizeOf g < sizeOf f := by
  cases f with
  | empty | flat => cases h
  | list width content l | option width content l =>
    rw [contents, List.mem_singleton] at h
    subst h
    simp
    omega
  | record fs keys l | union tagWidth width fs l =>
    have hlt := List.sizeOf_lt_of_mem (show g ∈ fs from h)
    simp
    omega

/-- Induction over a form: what holds of a node once it holds of the nodes directly below it
holds of every form. -/
theorem induct {motive : Form → Prop}
    (node : ∀ f, (∀ g ∈ f.contents, motive g) → motive f) (f : Form) : motive f :=
  node f fun g _hg => induct node g
termination_by sizeOf f
decreasing_by exact sizeOf_lt_of_mem_contents _hg

/-! ### Random access -/

section Access

variable (table : Buffers) (partition : String)

/-- The element of a buffer of a node at a place. -/
def entryAt? {α : Type} (f : Form) (role : String) (elements : Elements α) (i : Nat) :
    Option α := do
  let key ← f.key?
  let b ← lookup table (bufferName partition key role)
  let data ← elements.ofBuffer? b
  data[i]?

/-- The element of a flat buffer at a place. -/
def flatAt? (f : Form) : Primitive → Nat → Option Value
  | .bool, i => (f.entryAt? table partition "data" .bool i).map .bool
  | .uint8, i =>
    (f.entryAt? table partition "data" .uint8 i).map fun b => .int (Int64.ofNat b.toNat)
  | .int64, i => (f.entryAt? table partition "data" .int64 i).map fun n => .int (Int64.ofInt n)
  | .float64, i => (f.entryAt? table partition "data" .float64 i).map .real
  | .complex128, i => (f.entryAt? table partition "data" .complex128 i).map .complex
  | .time kind unit, i =>
    (f.entryAt? table partition "data" .int64 i).map fun n => .time kind (Int64.ofInt n) unit

/-- The places of the items of a list: from its offset up to the next one. -/
def placesAt? (f : Form) (i : Nat) : Option (List Nat) := do
  let start ← f.entryAt? table partition "offsets" .int64 i
  let stop ← f.entryAt? table partition "offsets" .int64 (i + 1)
  if 0 ≤ start ∧ start ≤ stop then some (List.range' start.toNat (stop.toNat - start.toNat))
  else none

/-- The string of the bytes at some places; text has to be valid. -/
def stringAt? (content : Form) (encoding : Encoding) (places : List Nat) : Option Value := do
  let bytes ← places.mapM (content.entryAt? table partition "data" .uint8)
  match encoding with
  | .utf8 => (Utf8.decodeString? bytes).map .string
  | .bytes => some (.bytes bytes)

mutual

/-- The element of an array at a place. -/
def valueAt? : Form → Nat → Option Value
  | .empty _, _ => none
  | .flat primitive l, i => (Form.flat primitive l).flatAt? table partition primitive i
  | .list width content l, i => do
    let places ← (Form.list width content l).placesAt? table partition i
    match (Form.list width content l).stringKind? with
    | some encoding => content.stringAt? table partition encoding places
    | none => (places.mapM fun j => valueAt? content j).map .list
  | .option width content l, i => do
    let place ← (Form.option width content l).entryAt? table partition "index" .int64 i
    if place < 0 then some .null else valueAt? content place.toNat
  | .record contents keys l, i => do
    let items ← rowAt? contents i
    match keys with
    | some keys =>
      some (.record ((lookup l.parameters recordParameter).bind Document.asString?)
        (lastEntries (keys.zip items)))
    | none => some (.tuple items)
  | .union tagWidth width contents l, i => do
    let f := Form.union tagWidth width contents l
    let tag ← f.entryAt? table partition "tags" .int8 i
    let place ← f.entryAt? table partition "index" .int64 i
    if 0 ≤ tag ∧ 0 ≤ place then memberAt? contents tag.toNat place.toNat else none

/-- The elements of several arrays at one place. -/
def rowAt? : List Form → Nat → Option (List Value)
  | [], _ => some []
  | f :: fs, i => do
    let head ← valueAt? f i
    let tail ← rowAt? fs i
    return head :: tail

/-- The element at a place of one of several arrays. -/
def memberAt? : List Form → Nat → Nat → Option Value
  | [], _, _ => none
  | f :: _, 0, i => valueAt? f i
  | _ :: fs, tag + 1, i => memberAt? fs tag i

end

/-- A column has as many elements as were asked for, each the one that random access leads
to. -/
def Shows (f : Form) (n : Nat) (out : Array Value) : Prop :=
  out.size = n ∧ ∀ i < n, f.valueAt? table partition i = out[i]?

end Access

variable {table : Buffers} {partition : String} {f : Form} {n : Nat}

/-! ### Buffers -/

/-- Steps one after the other give a result if each of them does. -/
theorem bind_eq_ok {α β : Type} {x : Reading α} {next : α → Reading β} {b : β} :
    (x >>= next) = .ok b ↔ ∃ a, x = .ok a ∧ next a = .ok b := by
  cases x with
  | error e => exact ⟨nofun, nofun⟩
  | ok a => exact ⟨fun h => ⟨a, rfl, h⟩, fun ⟨_, rfl, h⟩ => h⟩

/-- A buffer that is read has as many elements as are needed, each the entry at its place. -/
theorem buffer_shows {α : Type} {role : String} {elements : Elements α} {data : Array α}
    (h : f.buffer table partition role elements n = .ok data) :
    data.size = n ∧ ∀ i < n, f.entryAt? table partition role elements i = data[i]? := by
  obtain ⟨key, b, whole, hkey, hb, hdata, hle, rfl⟩ := exists_of_buffer_eq_ok h
  refine ⟨by simp [hle], fun i hi => ?_⟩
  simp [entryAt?, hkey, hb, hdata, hi, hle]

/-- Elements of a buffer, one by one as values. -/
theorem shows_map {α : Type} {role : String} {elements : Elements α} {g : α → Value}
    {out : Array Value} (hat : ∀ i, f.valueAt? table partition i
      = (f.entryAt? table partition role elements i).map g)
    (h : (f.buffer table partition role elements n).map (·.map g) = .ok out) :
    f.Shows table partition n out := by
  cases hdata : f.buffer table partition role elements n with
  | error e => rw [hdata] at h; cases h
  | ok data =>
    rw [hdata] at h
    cases h
    obtain ⟨hsize, hentries⟩ := buffer_shows hdata
    refine ⟨by rw [Array.size_map, hsize], fun i hi => ?_⟩
    rw [hat, hentries i hi, Array.getElem?_map]

theorem readFlat_shows {primitive : Primitive} {l : FormLabel} {out : Array Value}
    (h : readColumn table partition (.flat primitive l) n = .ok out) :
    (Form.flat primitive l).Shows table partition n out := by
  rw [readColumn] at h
  obtain ⟨items, hitems, h⟩ := bind_eq_ok.mp h
  obtain ⟨-, ⟨⟩⟩ := ensure_bind_eq_ok.mp h
  cases primitive <;> exact shows_map (fun i => by rw [valueAt?, flatAt?]) hitems

/-! ### Offsets -/

/-- Offsets that are read never decrease. -/
theorem firstDescent?_eq_none {previous : Int} {l : List Int} :
    firstDescent? previous l = none ↔ List.IsChain (· ≤ ·) (previous :: l) := by
  induction l generalizing previous with
  | nil => simp [firstDescent?]
  | cons x l ih =>
    rw [firstDescent?, List.isChain_cons_cons, ← ih]
    split <;> simp <;> omega

/-- Neighbouring entries stand at neighbouring places. -/
theorem getElem?_spans (l : List Int) (i : Nat) :
    (spans l)[i]? = (l[i]?).bind fun a => (l[i + 1]?).map fun b => (a.toNat, b.toNat) := by
  induction l generalizing i with
  | nil => simp [spans]
  | cons a l ih =>
    cases l with
    | nil => cases i <;> simp [spans]
    | cons b rest =>
      cases i with
      | zero => simp [spans]
      | succ i => simpa [spans] using ih i

theorem length_spans (l : List Int) : (spans l).length = l.length - 1 := by
  induction l with
  | nil => rfl
  | cons a l ih =>
    cases l with
    | nil => rfl
    | cons b rest => simpa [spans] using ih

/-- Offsets that have been read: one more than there are lists, from zero or above on, and
never decreasing. -/
structure OffsetsRead (table : Buffers) (partition : String) (f : Form) (n : Nat)
    (offsets : Array Int) : Prop where
  /-- The number of offsets. -/
  size_eq : offsets.size = n + 1
  /-- They are the entries of the buffer. -/
  entries : ∀ i ≤ n, f.entryAt? table partition "offsets" .int64 i = offsets[i]?
  /-- Their order. -/
  sorted : (0 :: offsets.toList).Pairwise (· ≤ ·)

/-- Where there is an offset after the last list, there is one for every list. -/
theorem readOffsets_shows {offsets : Array Int} {total : Int}
    (h : readOffsets table partition f n = .ok offsets) (htotal : offsets[n]? = some total) :
    f.OffsetsRead table partition n offsets := by
  obtain ⟨data, hbuffer, h⟩ := bind_eq_ok.mp h
  split at h
  · cases h
  · next hnone =>
    cases h
    obtain ⟨hsize, hentries⟩ := buffer_shows hbuffer
    have hn : n < offsets.size := (Array.getElem?_eq_some_iff.mp htotal).1
    have hmod : (n + 1) % sizeBound = n + 1 := by
      have hle := Nat.mod_le (n + 1) sizeBound
      omega
    rw [hmod] at hsize hentries
    refine ⟨hsize, fun i hi => hentries i (by omega), ?_⟩
    exact List.isChain_iff_pairwise.mp (firstDescent?_eq_none.mp hnone)

namespace OffsetsRead

variable {offsets : Array Int} {total start stop : Int}

theorem nonneg (h : f.OffsetsRead table partition n offsets) {i : Nat}
    (hi : offsets[i]? = some start) : 0 ≤ start := by
  refine (List.pairwise_cons.mp h.sorted).1 start ?_
  rw [← Array.getElem?_toList] at hi
  exact List.mem_of_getElem? hi

theorem le (h : f.OffsetsRead table partition n offsets) {i j : Nat} (hij : i < j)
    (hi : offsets[i]? = some start) (hj : offsets[j]? = some stop) : start ≤ stop := by
  rw [← Array.getElem?_toList] at hi hj
  obtain ⟨hi', rfl⟩ := List.getElem?_eq_some_iff.mp hi
  obtain ⟨hj', rfl⟩ := List.getElem?_eq_some_iff.mp hj
  exact List.pairwise_iff_getElem.mp (List.pairwise_cons.mp h.sorted).2 i j hi' hj' hij

theorem le_total (h : f.OffsetsRead table partition n offsets) (htotal : offsets[n]? = some total)
    {i : Nat} (hi : offsets[i]? = some stop) : stop ≤ total := by
  have hlt := (Array.getElem?_eq_some_iff.mp hi).1
  rw [h.size_eq] at hlt
  rcases Nat.lt_or_eq_of_le (Nat.le_of_lt_succ hlt) with hlt | rfl
  · exact h.le hlt hi htotal
  · rw [htotal] at hi
    exact Int.le_of_eq (Option.some.inj hi).symm

theorem length_spans_eq (h : f.OffsetsRead table partition n offsets) :
    (spans offsets.toList).length = n := by
  rw [length_spans, Array.length_toList, h.size_eq, Nat.add_sub_cancel]

/-- The items of a list are among those up to the last offset. -/
theorem exists_span (h : f.OffsetsRead table partition n offsets)
    (htotal : offsets[n]? = some total) {i : Nat} (hi : i < n) :
    ∃ start stop, (spans offsets.toList)[i]? = some (start, stop) ∧ start ≤ stop ∧
      stop ≤ total.toNat ∧
      f.placesAt? table partition i = some (List.range' start (stop - start)) := by
  have hsize := h.size_eq
  obtain ⟨start, hstart⟩ : ∃ start, offsets[i]? = some start :=
    ⟨_, Array.getElem?_eq_getElem (by omega)⟩
  obtain ⟨stop, hstop⟩ : ∃ stop, offsets[i + 1]? = some stop :=
    ⟨_, Array.getElem?_eq_getElem (by omega)⟩
  have hnonneg := h.nonneg hstart
  have hle := h.le (Nat.lt_succ_self i) hstart hstop
  have hlast := h.le_total htotal hstop
  refine ⟨start.toNat, stop.toNat, ?_, by omega, by omega, ?_⟩
  · simp [getElem?_spans, hstart, hstop]
  · simp [placesAt?, h.entries i (by omega), h.entries (i + 1) (by omega), hstart, hstop, hle,
      hnonneg]

end OffsetsRead

/-! ### Lists -/

theorem slice_eq_cons {α : Type} {items : Array α} {start stop : Nat} (h : start < stop)
    (hlt : start < items.size) :
    slice items (start, stop) = items[start] :: slice items (start + 1, stop) := by
  rw [slice, slice, Array.toList_extract, Array.toList_extract, List.extract_eq_take_drop,
    List.extract_eq_take_drop, List.drop_eq_getElem_cons (by simpa using hlt),
    show stop - start = stop - (start + 1) + 1 by omega, List.take_succ_cons]
  rfl

/-- The elements of a span are those at its places. -/
theorem mapM_range' {α : Type} {items : Array α} {access : Nat → Option α} {start stop : Nat}
    (h : ∀ i < items.size, access i = items[i]?) (hle : start ≤ stop) (hstop : stop ≤ items.size) :
    (List.range' start (stop - start)).mapM access = some (slice items (start, stop)) := by
  obtain ⟨count, rfl⟩ := Nat.exists_eq_add_of_le hle
  rw [Nat.add_sub_cancel_left]
  induction count generalizing start with
  | zero => simp [slice]
  | succ count ih =>
    have hlt : start < items.size := by omega
    have hrest : (List.range' (start + 1) count).mapM access
        = some (slice items (start + 1, start + 1 + count)) := ih (by omega) (by omega)
    rw [show start + 1 + count = start + (count + 1) by omega] at hrest
    rw [List.range'_succ, List.mapM_cons, h start hlt, Array.getElem?_eq_getElem hlt, hrest,
      slice_eq_cons (by omega) hlt]
    rfl

/-- Values that are read one by one. -/
theorem mapM_eq_ok {α β : Type} {read : α → Reading β} {l : List α} {out : List β}
    (h : l.mapM read = .ok out) : List.Forall₂ (fun a b => read a = .ok b) l out := by
  induction l generalizing out with
  | nil =>
    cases h
    exact .nil
  | cons a l ih =>
    rw [List.mapM_cons] at h
    obtain ⟨b, ha, h⟩ := bind_eq_ok.mp h
    obtain ⟨bs, hl, ⟨⟩⟩ := bind_eq_ok.mp h
    exact .cons ha (ih hl)

variable {offsets : Array Int} {total : Int}

/-- A column of lists, by the items of every one of them. -/
theorem OffsetsRead.shows_list {width : IndexWidth} {content : Form} {l : FormLabel}
    (h : (Form.list width content l).OffsetsRead table partition n offsets)
    (htotal : offsets[n]? = some total)
    (hkind : (Form.list width content l).stringKind? = none) {items : Array Value}
    (hitems : content.Shows table partition total.toNat items) :
    (Form.list width content l).Shows table partition n
      ((spans offsets.toList).map fun s => Value.list (slice items s)).toArray := by
  refine ⟨by simp [h.length_spans_eq], fun i hi => ?_⟩
  obtain ⟨start, stop, hspan, hle, hstop, hplaces⟩ := h.exists_span htotal hi
  rw [← hitems.1] at hstop
  have hitem := mapM_range' (hitems.1 ▸ hitems.2) hle hstop
  simp [valueAt?, hplaces, hkind, hitem, hspan]

/-- The string of the bytes of a span, as that at its places. -/
theorem stringAt?_eq {content : Form} {encoding : Encoding} {bytes : Array UInt8}
    {start stop : Nat} {v : Value}
    (hbytes : content.buffer table partition "data" .uint8 n = .ok bytes) (hle : start ≤ stop)
    (hstop : stop ≤ n)
    (hread : readString partition content (encoding == .utf8) bytes (start, stop) = .ok v) :
    content.stringAt? table partition encoding (List.range' start (stop - start)) = some v := by
  obtain ⟨hsize, hentries⟩ := buffer_shows hbytes
  rw [stringAt?, mapM_range' (hsize ▸ hentries) hle (by omega)]
  cases encoding with
  | utf8 =>
    rw [readString, if_pos (by decide)] at hread
    split at hread
    · next s hs =>
      cases hread
      exact congrArg (Option.map Value.string) hs
    · cases hread
  | bytes =>
    rw [readString, if_neg (by decide)] at hread
    cases hread
    rfl

/-- A column of strings, by the bytes of every one of them. -/
theorem OffsetsRead.shows_strings {width : IndexWidth} {content : Form} {l : FormLabel}
    {encoding : Encoding} {bytes : Array UInt8} {out : List Value}
    (h : (Form.list width content l).OffsetsRead table partition n offsets)
    (htotal : offsets[n]? = some total)
    (hkind : (Form.list width content l).stringKind? = some encoding)
    (hbytes : content.buffer table partition "data" .uint8 total.toNat = .ok bytes)
    (hread : (spans offsets.toList).mapM (readString partition content (encoding == .utf8) bytes)
      = .ok out) :
    (Form.list width content l).Shows table partition n out.toArray := by
  have hall := mapM_eq_ok hread
  have hlen := hall.length_eq
  rw [h.length_spans_eq] at hlen
  refine ⟨by simp [hlen], fun i hi => ?_⟩
  obtain ⟨start, stop, hspan, hle, hstop, hplaces⟩ := h.exists_span htotal hi
  obtain ⟨hi', hget⟩ := List.getElem?_eq_some_iff.mp hspan
  have hstring := hall.get hi' (hlen ▸ hi)
  rw [List.get_eq_getElem, hget] at hstring
  simp [valueAt?, hplaces, hkind, stringAt?_eq hbytes hle hstop hstring]

/-! ### Places -/

/-- Places that are read are below the size of what they need. -/
theorem lt_sizeOfPlaces {role : String} {size start : Nat} {places : List Int}
    (h : sizeOfPlaces partition f role start places = .ok size) :
    start ≤ size ∧ ∀ i ∈ places, 0 ≤ i → i.toNat < size := by
  induction places generalizing start with
  | nil =>
    cases h
    exact ⟨Nat.le_refl _, nofun⟩
  | cons i rest ih =>
    rw [sizeOfPlaces] at h
    split at h
    · cases h
    · obtain ⟨hstart, hrest⟩ := ih h
      refine ⟨by omega, List.forall_mem_cons.mpr ⟨fun hi => by omega, hrest⟩⟩

/-- A column of elements that may be missing, by the place of every one of them. -/
theorem shows_option {width : IndexWidth} {content : Form} {l : FormLabel} {index : Array Int}
    {size : Nat} {items : Array Value}
    (hindex : (Form.option width content l).buffer table partition "index" .int64 n = .ok index)
    (hsize : sizeOfPlaces partition (.option width content l) "index" 0 index.toList = .ok size)
    (hitems : content.Shows table partition size items) :
    (Form.option width content l).Shows table partition n (index.map (itemAt items)) := by
  obtain ⟨hlen, hentries⟩ := buffer_shows hindex
  refine ⟨by rw [Array.size_map, hlen], fun i hi => ?_⟩
  have hget : index[i]? = some index[i] := Array.getElem?_eq_getElem (by omega)
  have hplace := (lt_sizeOfPlaces hsize).2 index[i] (by simp)
  simp only [valueAt?, hentries i hi, hget, Array.getElem?_map, Option.bind_eq_bind,
    Option.bind_some, Option.map_some, itemAt]
  split
  · rfl
  · next hneg =>
    rw [hitems.2 _ (hplace (by omega)), Array.getElem?_eq_getElem (by rw [hitems.1]; omega)]
    rfl

/-! ### Several columns -/

theorem rowAt?_eq {fs : List Form} {columns : List (Array Value)} {i : Nat}
    (h : List.Forall₂ (fun f column => f.Shows table partition n column) fs columns)
    (hi : i < n) : rowAt? table partition fs i = some (row columns i) := by
  induction h with
  | nil => rfl
  | @cons f column _ _ hf _ ih =>
    rw [rowAt?, hf.2 i hi, ih, Array.getElem?_eq_getElem (by rw [hf.1]; exact hi)]
    simp [row, hf.1, hi]

theorem memberAt?_eq (fs : List Form) (tag i : Nat) :
    memberAt? table partition fs tag i = (fs[tag]?).bind fun f => f.valueAt? table partition i := by
  induction fs generalizing tag with
  | nil => rfl
  | cons f fs ih =>
    cases tag with
    | zero => rfl
    | succ tag => rw [memberAt?, ih, List.getElem?_cons_succ]

/-- Several columns that are read, a number of elements of each. -/
theorem readSized_shows {fs : List Form} {ns : List Nat} {columns : List (Array Value)}
    (hshows : ∀ f ∈ fs, ∀ n out, readColumn table partition f n = .ok out →
      f.Shows table partition n out)
    (hlen : fs.length = ns.length) (h : readSized table partition fs ns = .ok columns) :
    List.Forall₂ (fun p column => p.1.Shows table partition p.2 column) (fs.zip ns) columns := by
  induction fs generalizing ns columns with
  | nil =>
    cases h
    exact .nil
  | cons f fs ih =>
    cases ns with
    | nil => cases hlen
    | cons n ns =>
      rw [readSized] at h
      obtain ⟨column, hf, h⟩ := bind_eq_ok.mp h
      obtain ⟨rest, hrest, ⟨⟩⟩ := bind_eq_ok.mp h
      refine .cons (hshows f List.mem_cons_self n column hf) ?_
      exact ih (fun g hg => hshows g (List.mem_cons_of_mem _ hg)) (Nat.succ.inj hlen) hrest

/-- A column of records or tuples, by its rows. -/
theorem shows_record {fs : List Form} {keys : Option (List String)} {l : FormLabel}
    {columns : List (Array Value)}
    (h : List.Forall₂ (fun f column => f.Shows table partition n column) fs columns) :
    (Form.record fs keys l).Shows table partition n ((Array.range n).map fun i =>
      rowValue keys ((lookup l.parameters recordParameter).bind Document.asString?)
        (row columns i)) := by
  refine ⟨by simp, fun i hi => ?_⟩
  rw [valueAt?, rowAt?_eq h hi, Array.getElem?_map, Array.getElem?_range, if_pos hi]
  cases keys with
  | none => rfl
  | some keys =>
    rw [Option.map_some, rowValue, Value.recordOf, tableOf_eq_lastEntries]
    rfl

/-! ### Tags -/

/-- Tags and places that are read are below the number of the children and below the size
that each child needs. -/
theorem lt_sizesOfTagged {sizes sizes' : List Nat} {entries : List (Int × Int)}
    (h : sizesOfTagged partition f sizes entries = .ok sizes') :
    sizes'.length = sizes.length ∧ (∀ k < sizes.length, sizes[k]?.getD 0 ≤ sizes'[k]?.getD 0) ∧
      ∀ e ∈ entries, 0 ≤ e.1 ∧ 0 ≤ e.2 ∧ e.1.toNat < sizes.length ∧
        e.2.toNat < sizes'[e.1.toNat]?.getD 0 := by
  induction entries generalizing sizes with
  | nil =>
    cases h
    exact ⟨rfl, fun _ _ => Nat.le_refl _, nofun⟩
  | cons e rest ih =>
    obtain ⟨tag, i⟩ := e
    rw [sizesOfTagged] at h
    split at h
    · cases h
    · next htag =>
      split at h
      · cases h
      · next hi =>
        obtain ⟨hlen, hmono, hrest⟩ := ih h
        rw [List.length_modify] at hlen hmono hrest
        refine ⟨hlen, fun k hk => Nat.le_trans ?_ (hmono k hk), ?_⟩
        · rw [List.getElem?_modify, List.getElem?_eq_getElem hk]
          split
          · exact Nat.le_max_left _ _
          · exact Nat.le_refl _
        · refine List.forall_mem_cons.mpr ⟨⟨by omega, by omega, by omega, ?_⟩, hrest⟩
          have hle := hmono tag.toNat (by omega)
          rw [List.getElem?_modify_eq, List.getElem?_eq_getElem (by omega)] at hle
          change max _ (i.toNat + 1) ≤ _ at hle
          change i.toNat < (sizes'[tag.toNat]?).getD 0
          omega

/-- The child of a tag has been read as far as the place. -/
theorem exists_member {fs : List Form} {sizes : List Nat} {columns : List (Array Value)}
    {entries : List (Int × Int)}
    (hsizes : sizesOfTagged partition f (fs.map fun _ => 0) entries = .ok sizes)
    (hcolumns : List.Forall₂ (fun p column => p.1.Shows table partition p.2 column)
      (fs.zip sizes) columns) {e : Int × Int} (he : e ∈ entries) :
    0 ≤ e.1 ∧ 0 ≤ e.2 ∧ ∃ column, columns[e.1.toNat]? = some column ∧ e.2.toNat < column.size ∧
      memberAt? table partition fs e.1.toNat e.2.toNat = column[e.2.toNat]? := by
  obtain ⟨hlen, -, hentries⟩ := lt_sizesOfTagged hsizes
  rw [List.length_map] at hlen hentries
  obtain ⟨htag, hplace, hlt, hsize⟩ := hentries e he
  have hzip : e.1.toNat < (fs.zip sizes).length := by
    rw [List.length_zip, hlen, Nat.min_self]
    exact hlt
  have hchild := hcolumns.get hzip (hcolumns.length_eq ▸ hzip)
  simp only [List.get_eq_getElem, List.getElem_zip] at hchild
  rw [List.getElem?_eq_getElem (by omega), Option.getD_some] at hsize
  refine ⟨htag, hplace, _, List.getElem?_eq_getElem (hcolumns.length_eq ▸ hzip), ?_, ?_⟩
  · rwa [hchild.1]
  · rw [memberAt?_eq, List.getElem?_eq_getElem hlt, Option.bind_some, hchild.2 _ hsize]

/-- A column of elements of several kinds, by the tag and the place of every one of them. -/
theorem shows_union {tagWidth width : IndexWidth} {fs : List Form} {l : FormLabel}
    {tags index : Array Int} {sizes : List Nat} {columns : List (Array Value)}
    (htags : (Form.union tagWidth width fs l).buffer table partition "tags" .int8 n = .ok tags)
    (hindex : (Form.union tagWidth width fs l).buffer table partition "index" .int64 n
      = .ok index)
    (hsizes : sizesOfTagged partition (.union tagWidth width fs l) (fs.map fun _ => 0)
      (tags.toList.zip index.toList) = .ok sizes)
    (hcolumns : List.Forall₂ (fun p column => p.1.Shows table partition p.2 column)
      (fs.zip sizes) columns) :
    (Form.union tagWidth width fs l).Shows table partition n
      ((tags.toList.zip index.toList).map (taggedItem columns)).toArray := by
  obtain ⟨htagsLen, htagAt⟩ := buffer_shows htags
  obtain ⟨hindexLen, hplaceAt⟩ := buffer_shows hindex
  refine ⟨by simp [htagsLen, hindexLen], fun i hi => ?_⟩
  have htag : tags[i]? = some tags[i] := Array.getElem?_eq_getElem (by omega)
  have hplace : index[i]? = some index[i] := Array.getElem?_eq_getElem (by omega)
  have hentry : (tags.toList.zip index.toList)[i]? = some (tags[i], index[i]) := by
    simp [List.getElem?_zip_eq_some, htag, hplace]
  obtain ⟨htag0, hplace0, column, hcolumn, hlt, hmember⟩ :=
    exists_member hsizes hcolumns (List.mem_of_getElem? hentry)
  rw [Array.getElem?_eq_getElem hlt] at hmember
  simp [valueAt?, htagAt i hi, hplaceAt i hi, htag, hplace, htag0, hplace0, hmember, hentry,
    taggedItem, hcolumn, hlt]

/-! ### Columns -/

theorem readColumns_shows {fs : List Form} {columns : List (Array Value)}
    (hshows : ∀ f ∈ fs, ∀ n out, readColumn table partition f n = .ok out →
      f.Shows table partition n out)
    (h : readColumns table partition fs n = .ok columns) :
    List.Forall₂ (fun f column => f.Shows table partition n column) fs columns := by
  rw [readColumns_eq_readSized] at h
  have hzip : fs.zip (List.replicate fs.length n) = fs.map fun f => (f, n) := by
    rw [List.map_prod_left_eq_zip, List.map_const']
  have hall := readSized_shows hshows (by simp) h
  rwa [hzip, List.forall₂_map_left_iff] at hall

/-- **A column that is read has each element that random access leads to**, as many as were
asked for; whatever the buffers are. -/
theorem readColumn_shows (f : Form) (n : Nat) (out : Array Value)
    (h : readColumn table partition f n = .ok out) : f.Shows table partition n out := by
  induction f using induct generalizing n out with
  | node f ih =>
    cases f with
    | empty l =>
      rw [readColumn] at h
      split at h
      · next hn =>
        cases h
        exact ⟨hn.symm, fun i hi => by omega⟩
      · cases h
    | flat primitive l => exact readFlat_shows h
    | list width content l =>
      rw [readColumn] at h
      obtain ⟨offsets, hoffsets, h⟩ := bind_eq_ok.mp h
      split at h
      · cases h
      · next total htotal =>
        have hread := readOffsets_shows hoffsets htotal
        split at h
        · next encoding hkind =>
          obtain ⟨bytes, hbytes, h⟩ := bind_eq_ok.mp h
          obtain ⟨strings, hstrings, h⟩ := bind_eq_ok.mp h
          obtain ⟨-, ⟨⟩⟩ := ensure_bind_eq_ok.mp h
          exact hread.shows_strings htotal hkind hbytes hstrings
        · next hkind =>
          obtain ⟨items, hitems, h⟩ := bind_eq_ok.mp h
          obtain ⟨-, ⟨⟩⟩ := ensure_bind_eq_ok.mp h
          exact hread.shows_list htotal hkind
            (ih content (List.mem_singleton_self _) _ _ hitems)
    | option width content l =>
      rw [readColumn] at h
      obtain ⟨index, hindex, h⟩ := bind_eq_ok.mp h
      obtain ⟨size, hsize, h⟩ := bind_eq_ok.mp h
      obtain ⟨items, hitems, h⟩ := bind_eq_ok.mp h
      obtain ⟨-, ⟨⟩⟩ := ensure_bind_eq_ok.mp h
      exact shows_option hindex hsize (ih content (List.mem_singleton_self _) _ _ hitems)
    | record fs keys l =>
      rw [readColumn] at h
      obtain ⟨columns, hcolumns, h⟩ := bind_eq_ok.mp h
      obtain ⟨-, ⟨⟩⟩ := ensure_bind_eq_ok.mp h
      exact shows_record (readColumns_shows ih hcolumns)
    | union tagWidth width fs l =>
      rw [readColumn] at h
      obtain ⟨tags, htags, h⟩ := bind_eq_ok.mp h
      obtain ⟨index, hindex, h⟩ := bind_eq_ok.mp h
      obtain ⟨sizes, hsizes, h⟩ := bind_eq_ok.mp h
      obtain ⟨columns, hcolumns, h⟩ := bind_eq_ok.mp h
      obtain ⟨-, ⟨⟩⟩ := ensure_bind_eq_ok.mp h
      have hlen : fs.length = sizes.length := by
        rw [(lt_sizesOfTagged hsizes).1, List.length_map]
      exact shows_union htags hindex hsizes (readSized_shows ih hlen hcolumns)

/-- No more values are read than one block of memory can hold. -/
theorem le_maxValues_of_readColumn {out : Array Value}
    (h : readColumn table partition f n = .ok out) : n ≤ maxValues := by
  cases f with
  | empty l =>
    rw [readColumn] at h
    split at h
    · next hn => exact hn ▸ Nat.zero_le _
    · cases h
  | flat primitive l =>
    rw [readColumn] at h
    obtain ⟨_, -, h⟩ := bind_eq_ok.mp h
    exact (ensure_bind_eq_ok.mp h).1
  | list width content l =>
    rw [readColumn] at h
    obtain ⟨_, -, h⟩ := bind_eq_ok.mp h
    split at h
    · cases h
    · split at h
      · obtain ⟨_, -, h⟩ := bind_eq_ok.mp h
        obtain ⟨_, -, h⟩ := bind_eq_ok.mp h
        exact (ensure_bind_eq_ok.mp h).1
      · obtain ⟨_, -, h⟩ := bind_eq_ok.mp h
        exact (ensure_bind_eq_ok.mp h).1
  | option width content l =>
    rw [readColumn] at h
    obtain ⟨_, -, h⟩ := bind_eq_ok.mp h
    obtain ⟨_, -, h⟩ := bind_eq_ok.mp h
    obtain ⟨_, -, h⟩ := bind_eq_ok.mp h
    exact (ensure_bind_eq_ok.mp h).1
  | record fs keys l =>
    rw [readColumn] at h
    obtain ⟨_, -, h⟩ := bind_eq_ok.mp h
    exact (ensure_bind_eq_ok.mp h).1
  | union tagWidth width fs l =>
    rw [readColumn] at h
    obtain ⟨_, -, h⟩ := bind_eq_ok.mp h
    obtain ⟨_, -, h⟩ := bind_eq_ok.mp h
    obtain ⟨_, -, h⟩ := bind_eq_ok.mp h
    obtain ⟨_, -, h⟩ := bind_eq_ok.mp h
    exact (ensure_bind_eq_ok.mp h).1

/-- The values that are read are those that random access leads to. -/
theorem toValues_shows {vals : List Value} (h : f.toValues n table partition = .ok vals) :
    vals.length = n ∧ ∀ i < n, f.valueAt? table partition i = vals[i]? := by
  cases hread : readColumn table partition f n with
  | error e =>
    rw [toValues, hread] at h
    cases h
  | ok out =>
    rw [toValues, hread] at h
    cases h
    obtain ⟨hsize, hvalues⟩ := readColumn_shows f n out hread
    refine ⟨by rw [Array.length_toList, hsize], fun i hi => ?_⟩
    rw [hvalues i hi, Array.getElem?_toList]

end Form

end Columnar
