import Mathlib.Data.List.Chain
import Columnar.Proofs.Form.Access

/-!
# Shorter readings of longer buffers

How much is read of a node comes out of the buffers above it, so a shorter reading asks less of
every node below, and other things than before are checked there.  Still nothing that could be
read becomes an error or another value: an element is where random access leads to, and that
is the same in buffers that go on behind the ones of before.

## Main definitions

* `Buffer.IsPrefix` — a buffer goes on behind another one.
* `Buffers.Extends` — a table has every buffer of another one, and they may go on.
* `Buffers.Continues` — the same between the buffers of two partitions.

## Main results

* `Form.valueAt?_of_continues` — random access leads to the same element.
* `Form.exists_readColumn` — a shorter reading is no error.
* `Form.toValues_take` — **fewer elements of longer buffers are the first of those read
  before.**
-/

namespace Columnar

/-- A buffer has the elements of another one, of the same type, and may go on behind them. -/
inductive Buffer.IsPrefix : Buffer → Buffer → Prop
  /-- Truth values. -/
  | bool {xs ys : Array Bool} (h : xs.toList <+: ys.toList) : IsPrefix (.bool xs) (.bool ys)
  /-- Signed bytes. -/
  | int8 {xs ys : Array Int} (h : xs.toList <+: ys.toList) : IsPrefix (.int8 xs) (.int8 ys)
  /-- Bytes. -/
  | uint8 {xs ys : Array UInt8} (h : xs.toList <+: ys.toList) : IsPrefix (.uint8 xs) (.uint8 ys)
  /-- Signed words. -/
  | int64 {xs ys : Array Int} (h : xs.toList <+: ys.toList) : IsPrefix (.int64 xs) (.int64 ys)
  /-- Reals. -/
  | float64 {xs ys : Array Binary64} (h : xs.toList <+: ys.toList) :
      IsPrefix (.float64 xs) (.float64 ys)
  /-- Complex numbers. -/
  | complex128 {xs ys : Array Complex} (h : xs.toList <+: ys.toList) :
      IsPrefix (.complex128 xs) (.complex128 ys)

theorem Buffer.IsPrefix.refl (b : Buffer) : b.IsPrefix b := by
  cases b <;> constructor <;> exact List.prefix_refl _

namespace Buffers

/-- A table has every buffer of another one under its name, and the buffers may go on. -/
def Extends (table table' : Buffers) : Prop :=
  ∀ name b, lookup table name = some b → ∃ b', lookup table' name = some b' ∧ b.IsPrefix b'

theorem Extends.nil (table' : Buffers) : Extends [] table' := by
  intro name b hb
  cases hb

theorem Extends.cons {table table' : Buffers} {name : String} {b b' : Buffer}
    (hb' : lookup table' name = some b') (hbegin : b.IsPrefix b') (h : table.Extends table') :
    Extends ((name, b) :: table) table' := by
  intro other b'' hother
  rw [lookup] at hother
  split at hother
  · next heq =>
    cases hother
    exact ⟨b', heq ▸ hb', hbegin⟩
  · exact h other b'' hother

/-- What a table has in one partition another one has in another partition, and the buffers may
go on. -/
def Continues (table : Buffers) (partition : String) (table' : Buffers) (partition' : String) :
    Prop :=
  ∀ key role b, lookup table (bufferName partition key role) = some b →
    ∃ b', lookup table' (bufferName partition' key role) = some b' ∧ b.IsPrefix b'

theorem Extends.continues {table table' : Buffers} (h : table.Extends table')
    (partition : String) : table.Continues partition table' partition := by
  intro key role b hb
  exact h _ b hb

end Buffers

namespace Form

/-! ### Elements of one type -/

/-- The elements of one type go on where a buffer goes on. -/
def Elements.GoesOn {α : Type} (elements : Elements α) : Prop :=
  ∀ b b' data, b.IsPrefix b' → elements.ofBuffer? b = some data →
    ∃ data', elements.ofBuffer? b' = some data' ∧ data.toList <+: data'.toList

namespace Elements

theorem goesOn_bool : bool.GoesOn := by
  intro b b' data hb hdata
  cases hb with
  | bool h => cases hdata; exact ⟨_, rfl, h⟩
  | _ => cases hdata

theorem goesOn_int8 : int8.GoesOn := by
  intro b b' data hb hdata
  cases hb with
  | int8 h => cases hdata; exact ⟨_, rfl, h⟩
  | _ => cases hdata

theorem goesOn_uint8 : uint8.GoesOn := by
  intro b b' data hb hdata
  cases hb with
  | uint8 h => cases hdata; exact ⟨_, rfl, h⟩
  | _ => cases hdata

theorem goesOn_int64 : int64.GoesOn := by
  intro b b' data hb hdata
  cases hb with
  | int64 h => cases hdata; exact ⟨_, rfl, h⟩
  | _ => cases hdata

theorem goesOn_float64 : float64.GoesOn := by
  intro b b' data hb hdata
  cases hb with
  | float64 h => cases hdata; exact ⟨_, rfl, h⟩
  | _ => cases hdata

theorem goesOn_complex128 : complex128.GoesOn := by
  intro b b' data hb hdata
  cases hb with
  | complex128 h => cases hdata; exact ⟨_, rfl, h⟩
  | _ => cases hdata

end Elements

variable {table table' : Buffers} {partition partition' : String} {f : Form} {m n : Nat}

/-! ### Random access -/

section Access

variable (hc : table.Continues partition table' partition')
include hc

theorem entryAt?_of_continues {α : Type} {role : String} {elements : Elements α} {i : Nat} {x : α}
    (hgo : elements.GoesOn) (h : f.entryAt? table partition role elements i = some x) :
    f.entryAt? table' partition' role elements i = some x := by
  simp only [entryAt?, Option.bind_eq_bind, Option.bind_eq_some_iff] at h ⊢
  obtain ⟨key, hkey, b, hb, data, hdata, hx⟩ := h
  obtain ⟨b', hb', hbegin⟩ := hc key role b hb
  obtain ⟨data', hdata', hle⟩ := hgo b b' data hbegin hdata
  refine ⟨key, hkey, b', hb', data', hdata', ?_⟩
  rw [← Array.getElem?_toList] at hx ⊢
  obtain ⟨hi, rfl⟩ := List.getElem?_eq_some_iff.mp hx
  exact List.getElem?_eq_some_iff.mpr ⟨_, (hle.getElem hi).symm⟩

theorem flatAt?_of_continues {primitive : Primitive} {i : Nat} {v : Value}
    (h : f.flatAt? table partition primitive i = some v) :
    f.flatAt? table' partition' primitive i = some v := by
  have hentry : ∀ {α : Type} {elements : Elements α} {g : α → Value}, elements.GoesOn →
      (f.entryAt? table partition "data" elements i).map g = some v →
      (f.entryAt? table' partition' "data" elements i).map g = some v := by
    intro α elements g hgo h
    obtain ⟨x, hx, rfl⟩ := Option.map_eq_some_iff.mp h
    rw [entryAt?_of_continues hc hgo hx, Option.map_some]
  cases primitive with
  | bool => exact hentry Elements.goesOn_bool h
  | uint8 => exact hentry Elements.goesOn_uint8 h
  | int64 => exact hentry Elements.goesOn_int64 h
  | float64 => exact hentry Elements.goesOn_float64 h
  | complex128 => exact hentry Elements.goesOn_complex128 h
  | time kind unit => exact hentry Elements.goesOn_int64 h

theorem placesAt?_of_continues {i : Nat} {places : List Nat}
    (h : f.placesAt? table partition i = some places) :
    f.placesAt? table' partition' i = some places := by
  obtain ⟨start, hstart, h⟩ := Option.bind_eq_some_iff.mp h
  obtain ⟨stop, hstop, h⟩ := Option.bind_eq_some_iff.mp h
  rw [placesAt?, entryAt?_of_continues hc Elements.goesOn_int64 hstart,
    entryAt?_of_continues hc Elements.goesOn_int64 hstop]
  exact h

omit hc in
/-- What is found one by one is found wherever each is found. -/
theorem mapM_eq_some_of {α β : Type} {find find' : α → Option β} {l : List α} {out : List β}
    (h : l.mapM find = some out) (hfind : ∀ a b, find a = some b → find' a = some b) :
    l.mapM find' = some out := by
  induction l generalizing out with
  | nil => exact h
  | cons a l ih =>
    rw [List.mapM_cons] at h ⊢
    obtain ⟨b, hb, h⟩ := Option.bind_eq_some_iff.mp h
    obtain ⟨bs, hbs, h⟩ := Option.bind_eq_some_iff.mp h
    rw [hfind a b hb, ih hbs]
    exact h

/-- **Random access leads to the same element**, whatever stands behind the buffers. -/
theorem valueAt?_of_continues (f : Form) (i : Nat) (v : Value)
    (h : f.valueAt? table partition i = some v) : f.valueAt? table' partition' i = some v := by
  induction f using induct generalizing i v with
  | node f ih =>
    cases f with
    | empty l => exact h
    | flat primitive l =>
      rw [valueAt?] at h ⊢
      exact flatAt?_of_continues hc h
    | list width content l =>
      rw [valueAt?] at h ⊢
      obtain ⟨places, hplaces, h⟩ := Option.bind_eq_some_iff.mp h
      rw [placesAt?_of_continues hc hplaces, Option.bind_eq_bind, Option.bind_some]
      cases hkind : (Form.list width content l).stringKind? with
      | some encoding =>
        simp only [hkind, stringAt?] at h ⊢
        obtain ⟨bytes, hbytes, h⟩ := Option.bind_eq_some_iff.mp h
        rw [mapM_eq_some_of hbytes fun j b hb =>
          entryAt?_of_continues hc Elements.goesOn_uint8 hb]
        exact h
      | none =>
        simp only [hkind] at h ⊢
        obtain ⟨items, hitems, rfl⟩ := Option.map_eq_some_iff.mp h
        rw [mapM_eq_some_of hitems fun j w hw => ih content (List.mem_singleton_self _) j w hw,
          Option.map_some]
    | option width content l =>
      rw [valueAt?] at h ⊢
      obtain ⟨place, hplace, h⟩ := Option.bind_eq_some_iff.mp h
      rw [entryAt?_of_continues hc Elements.goesOn_int64 hplace, Option.bind_eq_bind,
        Option.bind_some]
      split at h
      · next hneg =>
        rw [if_pos hneg]
        exact h
      · next hneg =>
        rw [if_neg hneg]
        exact ih content (List.mem_singleton_self _) _ v h
    | record fs keys l =>
      have hrow : ∀ fs' items, (∀ g ∈ fs', g ∈ fs) → rowAt? table partition fs' i = some items →
          rowAt? table' partition' fs' i = some items := by
        intro fs' items hsub hitems
        induction fs' generalizing items with
        | nil => exact hitems
        | cons g gs ihgs =>
          obtain ⟨w, hw, hitems⟩ := Option.bind_eq_some_iff.mp hitems
          obtain ⟨ws, hws, hitems⟩ := Option.bind_eq_some_iff.mp hitems
          rw [rowAt?, ih g (hsub g List.mem_cons_self) i w hw,
            ihgs ws (fun g' hg' => hsub g' (List.mem_cons_of_mem _ hg')) hws]
          exact hitems
      rw [valueAt?] at h ⊢
      obtain ⟨items, hitems, h⟩ := Option.bind_eq_some_iff.mp h
      rw [hrow fs items (fun _ hg => hg) hitems]
      exact h
    | union tagWidth width fs l =>
      rw [valueAt?] at h ⊢
      obtain ⟨tag, htag, h⟩ := Option.bind_eq_some_iff.mp h
      obtain ⟨place, hplace, h⟩ := Option.bind_eq_some_iff.mp h
      rw [entryAt?_of_continues hc Elements.goesOn_int8 htag,
        entryAt?_of_continues hc Elements.goesOn_int64 hplace]
      simp only [Option.bind_eq_bind, Option.bind_some]
      split at h
      · next hnonneg =>
        rw [if_pos hnonneg]
        rw [memberAt?_eq] at h ⊢
        obtain ⟨g, hg, h⟩ := Option.bind_eq_some_iff.mp h
        rw [hg, Option.bind_some]
        exact ih g (List.mem_of_getElem? hg) _ v h
      · cases h

/-! ### Shorter readings -/

/-- The first elements of a buffer that goes on. -/
theorem buffer_of_continues {α : Type} {role : String} {elements : Elements α} {data : Array α}
    (hgo : elements.GoesOn) (h : f.buffer table partition role elements n = .ok data)
    (hm : m ≤ n) : f.buffer table' partition' role elements m = .ok (data.take m) := by
  obtain ⟨key, b, whole, hkey, hb, hdata, hle, rfl⟩ := exists_of_buffer_eq_ok h
  obtain ⟨b', hb', hbegin⟩ := hc key role b hb
  obtain ⟨whole', hdata', hwhole⟩ := hgo b b' whole hbegin hdata
  have hsize := hwhole.length_le
  rw [Array.length_toList, Array.length_toList] at hsize
  rw [buffer_eq_ok hkey hb' hdata' (by omega)]
  refine congrArg Except.ok (Array.toList_inj.mp ?_)
  obtain ⟨more, hmore⟩ := hwhole
  rw [toList_take, toList_take, toList_take, ← hmore, List.take_take, Nat.min_eq_left hm,
    List.take_append_of_le_length (by rw [Array.length_toList]; omega)]

theorem readFlat_of_continues {primitive : Primitive} {out : Array Value}
    (h : readFlat table partition f primitive n = .ok out) (hm : m ≤ n) :
    ∃ out', readFlat table' partition' f primitive m = .ok out' := by
  have hdata : ∀ {α : Type} {elements : Elements α} {g : α → Value}, elements.GoesOn →
      (f.buffer table partition "data" elements n).map (·.map g) = .ok out →
      ∃ out', (f.buffer table' partition' "data" elements m).map (·.map g) = .ok out' := by
    intro α elements g hgo h
    cases hbuffer : f.buffer table partition "data" elements n with
    | error e => rw [hbuffer] at h; cases h
    | ok data =>
      rw [buffer_of_continues hc hgo hbuffer hm]
      exact ⟨_, rfl⟩
  cases primitive with
  | bool => exact hdata Elements.goesOn_bool h
  | uint8 => exact hdata Elements.goesOn_uint8 h
  | int64 => exact hdata Elements.goesOn_int64 h
  | float64 => exact hdata Elements.goesOn_float64 h
  | complex128 => exact hdata Elements.goesOn_complex128 h
  | time kind unit => exact hdata Elements.goesOn_int64 h

/-- The offsets of fewer lists are the first of those read before. -/
theorem readOffsets_of_continues {offsets : Array Int} {total : Int}
    (h : readOffsets table partition f n = .ok offsets) (htotal : offsets[n]? = some total)
    (hm : m ≤ n) : readOffsets table' partition' f m = .ok (offsets.take (m + 1)) := by
  have hread := readOffsets_shows h htotal
  obtain ⟨data, hbuffer, h⟩ := bind_eq_ok.mp h
  split at h
  · cases h
  · next hnone =>
    cases h
    have hsize := (buffer_shows hbuffer).1
    have hlt : n + 1 < sizeBound := by
      have hmod := Nat.mod_lt (n + 1) (show 0 < sizeBound by decide)
      rw [hread.size_eq] at hsize
      omega
    have hsorted : firstDescent? 0 (offsets.take (m + 1)).toList = none := by
      rw [firstDescent?_eq_none] at hnone ⊢
      rw [toList_take]
      exact hnone.take (m + 2)
    rw [readOffsets, Nat.mod_eq_of_lt (by omega),
      buffer_of_continues hc Elements.goesOn_int64 hbuffer
        (by rw [Nat.mod_eq_of_lt hlt]; exact Nat.succ_le_succ hm), ok_bind, hsorted]

end Access

/-- Neighbouring entries of the first entries. -/
theorem spans_take (l : List Int) (m : Nat) : spans (l.take (m + 1)) = (spans l).take m := by
  induction m generalizing l with
  | zero =>
    cases l with
    | nil => rfl
    | cons a l => rw [List.take_succ_cons, List.take_zero, List.take_zero]; rfl
  | succ m ih =>
    match l with
    | [] => rfl
    | [a] => rfl
    | a :: b :: rest =>
      have hrest := ih (b :: rest)
      rw [List.take_succ_cons] at hrest
      rw [List.take_succ_cons, List.take_succ_cons, spans, hrest, spans, List.take_succ_cons]

/-- A string is read wherever its bytes are. -/
theorem readString_eq_ok {isText : Bool} {bytes bytes' : Array UInt8} {span : Nat × Nat}
    {v : Value} (h : readString partition f isText bytes span = .ok v)
    (hslice : slice bytes' span = slice bytes span) :
    readString partition' f isText bytes' span = .ok v := by
  unfold readString at h ⊢
  rw [hslice]
  cases isText with
  | false => exact h
  | true =>
    simp only [if_true] at h ⊢
    split at h
    · exact h
    · cases h

/-- The bytes of a span that ends among the first of them. -/
theorem slice_take {α : Type} (items : Array α) {size : Nat} {span : Nat × Nat}
    (h : span.2 ≤ size) : slice (items.take size) span = slice items span := by
  have hlist (xs : Array α) : slice xs span = (xs.toList.drop span.1).take (span.2 - span.1) := by
    rw [slice, Array.toList_extract, List.extract_eq_take_drop]
  rw [hlist, hlist, toList_take, List.drop_take, List.take_take, Nat.min_eq_left (by omega)]

/-- The first results of several that are read one by one. -/
theorem exists_mapM_take {α β : Type} {read read' : α → Reading β} {l : List α} {out : List β}
    (h : l.mapM read = .ok out) (m : Nat)
    (hread : ∀ a ∈ l.take m, ∀ b, read a = .ok b → read' a = .ok b) :
    ∃ out', (l.take m).mapM read' = .ok out' := by
  induction l generalizing out m with
  | nil => exact ⟨[], by rw [List.take_nil]; rfl⟩
  | cons a l ih =>
    cases m with
    | zero => exact ⟨[], rfl⟩
    | succ m =>
      rw [List.mapM_cons] at h
      obtain ⟨b, hb, h⟩ := bind_eq_ok.mp h
      obtain ⟨bs, hbs, -⟩ := bind_eq_ok.mp h
      rw [List.take_succ_cons] at hread ⊢
      obtain ⟨out', hout'⟩ := ih hbs m fun a' ha' => hread a' (List.mem_cons_of_mem _ ha')
      rw [List.mapM_cons, hread a List.mem_cons_self b hb, ok_bind, hout']
      exact ⟨_, rfl⟩

/-- No list ends behind the last offset. -/
theorem OffsetsRead.stop_le {offsets : Array Int} {total : Int}
    (h : f.OffsetsRead table partition n offsets) (htotal : offsets[n]? = some total) :
    ∀ s ∈ spans offsets.toList, s.2 ≤ total.toNat := by
  intro s hs
  obtain ⟨i, hi⟩ := List.mem_iff_getElem?.mp hs
  have hlt := (List.getElem?_eq_some_iff.mp hi).1
  rw [h.length_spans_eq] at hlt
  obtain ⟨start, stop, hspan, -, hstop, -⟩ := h.exists_span htotal hlt
  rw [hi] at hspan
  cases hspan
  exact hstop

/-- The first strings end where the bytes that are asked for end. -/
theorem exists_strings_take {content : Form} {isText : Bool} {offsets : Array Int} {total : Int}
    {bytes : Array UInt8} {strings : List Value}
    (h : f.OffsetsRead table' partition' m (offsets.take (m + 1)))
    (htotal : (offsets.take (m + 1))[m]? = some total)
    (hstrings : (spans offsets.toList).mapM (readString partition content isText bytes)
      = .ok strings) :
    ∃ out, ((spans offsets.toList).take m).mapM
      (readString partition' content isText (bytes.take total.toNat)) = .ok out := by
  refine exists_mapM_take hstrings m fun s hs v hv => ?_
  rw [← spans_take, ← toList_take] at hs
  exact readString_eq_ok hv (slice_take bytes (h.stop_le htotal s hs))

/-- The first places need no more than all of them. -/
theorem exists_sizeOfPlaces_take (partition' : String) {role : String} {start size : Nat}
    {places : List Int} (h : sizeOfPlaces partition f role start places = .ok size) (m : Nat) :
    ∃ size', sizeOfPlaces partition' f role start (places.take m) = .ok size' ∧ size' ≤ size := by
  induction places generalizing start m with
  | nil => exact ⟨start, by rw [List.take_nil]; rfl, (lt_sizeOfPlaces h).1⟩
  | cons i rest ih =>
    cases m with
    | zero => exact ⟨start, rfl, (lt_sizeOfPlaces h).1⟩
    | succ m =>
      rw [sizeOfPlaces] at h
      split at h
      · cases h
      · next hi =>
        rw [List.take_succ_cons, sizeOfPlaces, if_neg hi]
        exact ih h m

/-- The sizes that are needed grow with every tagged place. -/
theorem le_sizesOfTagged {sizes sizes' : List Nat} {entries : List (Int × Int)}
    (h : sizesOfTagged partition f sizes entries = .ok sizes') :
    List.Forall₂ (· ≤ ·) sizes sizes' := by
  obtain ⟨hlen, hle, -⟩ := lt_sizesOfTagged h
  refine List.forall₂_iff_get.mpr ⟨hlen.symm, ?_⟩
  intro i hi hi'
  have hlei := hle i hi
  rwa [List.getElem?_eq_getElem hi, List.getElem?_eq_getElem hi'] at hlei

/-- The first tagged places need no more than all of them. -/
theorem exists_sizesOfTagged_take (partition' : String) {sizes sizes' : List Nat}
    {entries : List (Int × Int)} (h : sizesOfTagged partition f sizes entries = .ok sizes')
    (m : Nat) :
    ∃ fewer, sizesOfTagged partition' f sizes (entries.take m) = .ok fewer ∧
      List.Forall₂ (· ≤ ·) fewer sizes' := by
  induction entries generalizing sizes m with
  | nil => exact ⟨sizes, by rw [List.take_nil]; rfl, le_sizesOfTagged h⟩
  | cons e rest ih =>
    cases m with
    | zero => exact ⟨sizes, rfl, le_sizesOfTagged h⟩
    | succ m =>
      obtain ⟨tag, i⟩ := e
      rw [sizesOfTagged] at h
      split at h
      · cases h
      · next htag =>
        split at h
        · cases h
        · next hi =>
          rw [List.take_succ_cons, sizesOfTagged, if_neg htag, if_neg hi]
          exact ih h m

/-- Fewer elements of each of several arrays. -/
theorem exists_readSized_of_le {fs : List Form} {ms ns : List Nat} {columns : List (Array Value)}
    (hle : List.Forall₂ (· ≤ ·) ms ns)
    (hread : ∀ f ∈ fs, ∀ m n out, m ≤ n → readColumn table partition f n = .ok out →
      ∃ out', readColumn table' partition' f m = .ok out')
    (h : readSized table partition fs ns = .ok columns) :
    ∃ columns', readSized table' partition' fs ms = .ok columns' := by
  induction hle generalizing fs columns with
  | nil => cases fs <;> exact ⟨[], by simp [readSized]⟩
  | cons hmn _ ih =>
    cases fs with
    | nil => exact ⟨[], by simp [readSized]⟩
    | cons f fs =>
      rw [readSized] at h
      obtain ⟨head, hhead, h⟩ := bind_eq_ok.mp h
      obtain ⟨rest, hrest, -⟩ := bind_eq_ok.mp h
      obtain ⟨head', hhead'⟩ := hread f List.mem_cons_self _ _ head hmn hhead
      obtain ⟨rest', hrest'⟩ := ih (fun g hg => hread g (List.mem_cons_of_mem _ hg)) hrest
      rw [readSized, hhead', ok_bind, hrest']
      exact ⟨_, rfl⟩

/-- Fewer lists, or strings, of what their offsets lead to. -/
theorem exists_readList_of_le (hc : table.Continues partition table' partition')
    {width : IndexWidth} {content : Form} {l : FormLabel} {out : Array Value} (hm : m ≤ n)
    (hread : ∀ m n out, m ≤ n → readColumn table partition content n = .ok out →
      ∃ out', readColumn table' partition' content m = .ok out')
    (h : readColumn table partition (.list width content l) n = .ok out) :
    ∃ out', readColumn table' partition' (.list width content l) m = .ok out' := by
  rw [readColumn] at h
  obtain ⟨offsets, hoffsets, h⟩ := bind_eq_ok.mp h
  split at h
  · cases h
  · next total htotal =>
    have hoffsetsRead := readOffsets_shows hoffsets htotal
    obtain ⟨total', htotal'⟩ : ∃ total', offsets[m]? = some total' :=
      ⟨_, Array.getElem?_eq_getElem (by have hsize := hoffsetsRead.size_eq; omega)⟩
    have htotalLe : total'.toNat ≤ total.toNat :=
      Int.toNat_le_toNat (hoffsetsRead.le_total htotal htotal')
    have hlast : (offsets.take (m + 1))[m]? = some total' := by
      rw [← Array.getElem?_toList, toList_take, List.getElem?_take_of_lt (Nat.lt_succ_self m),
        Array.getElem?_toList, htotal']
    rw [readColumn, readOffsets_of_continues hc hoffsets htotal hm]
    simp only [ok_bind, hlast, toList_take, spans_take]
    split at h
    · next encoding _ =>
      obtain ⟨bytes, hbytes, h⟩ := bind_eq_ok.mp h
      obtain ⟨strings, hstrings, h⟩ := bind_eq_ok.mp h
      have hroom := Nat.le_trans hm (ensure_bind_eq_ok.mp h).1
      simp only [buffer_of_continues hc Elements.goesOn_uint8 hbytes htotalLe, ok_bind]
      have hshorter := readOffsets_shows (readOffsets_of_continues hc hoffsets htotal hm) hlast
      obtain ⟨out', hout'⟩ := exists_strings_take hshorter hlast hstrings
      rw [hout', ok_bind, ensure_bind hroom]
      exact ⟨_, rfl⟩
    · obtain ⟨items, hitems, h⟩ := bind_eq_ok.mp h
      have hroom := Nat.le_trans hm (ensure_bind_eq_ok.mp h).1
      obtain ⟨items', hitems'⟩ := hread _ _ items htotalLe hitems
      simp only [hitems', ok_bind, ensure_bind hroom]
      exact ⟨_, rfl⟩

/-- Fewer elements of a union, and of each of its contents as many as their places need. -/
theorem exists_readUnion_of_le (hc : table.Continues partition table' partition')
    {tagWidth width : IndexWidth} {fs : List Form} {l : FormLabel}
    {out : Array Value} (hm : m ≤ n)
    (hread : ∀ f ∈ fs, ∀ m n out, m ≤ n → readColumn table partition f n = .ok out →
      ∃ out', readColumn table' partition' f m = .ok out')
    (h : readColumn table partition (.union tagWidth width fs l) n = .ok out) :
    ∃ out', readColumn table' partition' (.union tagWidth width fs l) m = .ok out' := by
  rw [readColumn] at h
  obtain ⟨tags, htags, h⟩ := bind_eq_ok.mp h
  obtain ⟨index, hindex, h⟩ := bind_eq_ok.mp h
  obtain ⟨sizes, hsizes, h⟩ := bind_eq_ok.mp h
  obtain ⟨columns, hcolumns, h⟩ := bind_eq_ok.mp h
  have hroom := Nat.le_trans hm (ensure_bind_eq_ok.mp h).1
  obtain ⟨fewer, hfewer, hle⟩ := exists_sizesOfTagged_take partition' hsizes m
  obtain ⟨columns', hcolumns'⟩ := exists_readSized_of_le hle hread hcolumns
  rw [readColumn, buffer_of_continues hc Elements.goesOn_int8 htags hm, ok_bind,
    buffer_of_continues hc Elements.goesOn_int64 hindex hm, ok_bind]
  have hentries : ((tags.take m).toList).zip (index.take m).toList =
      (tags.toList.zip index.toList).take m := by
    rw [toList_take, toList_take]
    exact List.take_zipWith.symm
  simp only [hentries, hfewer, ok_bind, hcolumns', ensure_bind hroom]
  exact ⟨_, rfl⟩

/-- **A shorter reading is no error**, whatever stands behind the buffers. -/
theorem exists_readColumn (hc : table.Continues partition table' partition') (f : Form)
    (m n : Nat) (out : Array Value) (hm : m ≤ n) (h : readColumn table partition f n = .ok out) :
    ∃ out', readColumn table' partition' f m = .ok out' := by
  induction f using induct generalizing m n out with
  | node f ih =>
    have hread : ∀ fs, fs = f.contents → ∀ g ∈ fs, ∀ m n out, m ≤ n →
        readColumn table partition g n = .ok out →
        ∃ out', readColumn table' partition' g m = .ok out' := by
      rintro fs rfl g hg m n out
      exact ih g hg m n out
    cases f with
    | empty l =>
      rw [readColumn] at h
      split at h
      · next hn =>
        have hm0 : m = 0 := by omega
        rw [readColumn, if_pos hm0]
        exact ⟨_, rfl⟩
      · cases h
    | flat primitive l =>
      rw [readColumn] at h ⊢
      obtain ⟨items, hitems, h⟩ := bind_eq_ok.mp h
      obtain ⟨items', hitems'⟩ := readFlat_of_continues hc hitems hm
      rw [hitems', ok_bind, ensure_bind (Nat.le_trans hm (ensure_bind_eq_ok.mp h).1)]
      exact ⟨_, rfl⟩
    | list width content l =>
      exact exists_readList_of_le hc hm (ih content (List.mem_singleton_self _)) h
    | option width content l =>
      rw [readColumn] at h
      obtain ⟨index, hindex, h⟩ := bind_eq_ok.mp h
      obtain ⟨size, hsize, h⟩ := bind_eq_ok.mp h
      obtain ⟨items, hitems, h⟩ := bind_eq_ok.mp h
      have hroom := Nat.le_trans hm (ensure_bind_eq_ok.mp h).1
      obtain ⟨size', hsize', hle⟩ := exists_sizeOfPlaces_take partition' hsize m
      obtain ⟨items', hitems'⟩ := ih content (List.mem_singleton_self _) _ _ items hle hitems
      rw [readColumn, buffer_of_continues hc Elements.goesOn_int64 hindex hm]
      simp only [ok_bind, toList_take, hsize', hitems', ensure_bind hroom]
      exact ⟨_, rfl⟩
    | record fs keys l =>
      rw [readColumn, readColumns_eq_readSized] at h
      obtain ⟨columns, hcolumns, h⟩ := bind_eq_ok.mp h
      have hroom := Nat.le_trans hm (ensure_bind_eq_ok.mp h).1
      have hle : List.Forall₂ (· ≤ ·) (List.replicate fs.length m) (List.replicate fs.length n) :=
        List.forall₂_iff_get.mpr ⟨by simp, fun i hi hi' => by simpa using hm⟩
      obtain ⟨columns', hcolumns'⟩ :=
        exists_readSized_of_le hle (hread fs rfl) hcolumns
      rw [readColumn, readColumns_eq_readSized, hcolumns', ok_bind, ensure_bind hroom]
      exact ⟨_, rfl⟩
    | union tagWidth width fs l => exact exists_readUnion_of_le hc hm (hread fs rfl) h

/-- The first elements, read from buffers that go on, are the first of those read before. -/
theorem toValues_of_continues (hc : table.Continues partition table' partition') {f : Form}
    {vals : List Value} (hm : m ≤ n) (h : f.toValues n table partition = .ok vals) :
    f.toValues m table' partition' = .ok (vals.take m) := by
  cases hread : readColumn table partition f n with
  | error e =>
    rw [toValues, hread] at h
    cases h
  | ok out =>
    rw [toValues, hread] at h
    cases h
    obtain ⟨out', hread'⟩ := exists_readColumn hc f m n out hm hread
    obtain ⟨hsize, hvalues⟩ := readColumn_shows f n out hread
    obtain ⟨hsize', hvalues'⟩ := readColumn_shows f m out' hread'
    rw [toValues, hread']
    refine congrArg Except.ok (List.ext_getElem? fun i => ?_)
    rcases Nat.lt_or_ge i m with hi | hi
    · -- each element is the one that random access leads to, in the buffers of before already
      have hold := hvalues i (by omega)
      rw [Array.getElem?_eq_getElem (by omega)] at hold
      have hnew := valueAt?_of_continues hc f i _ hold
      rw [hvalues' i hi] at hnew
      rw [List.getElem?_take_of_lt hi, Array.getElem?_toList, Array.getElem?_toList, hnew,
        Array.getElem?_eq_getElem (by omega)]
    · rw [List.getElem?_eq_none (by rw [Array.length_toList]; omega),
        List.getElem?_eq_none (by rw [List.length_take]; omega)]

/-- **Fewer elements of longer buffers are the first of those read before.**  If a form is read
without an error, then so is any smaller number of its elements, from any table in which the
same buffers are found and may go on; and they are the first ones of before. -/
theorem toValues_take (f : Form) (table table' : Buffers) (partition : String) (m n : Nat)
    (vals : List Value) (hm : m ≤ n) (htables : table.Extends table')
    (h : f.toValues n table partition = .ok vals) :
    f.toValues m table' partition = .ok (vals.take m) :=
  toValues_of_continues (htables.continues partition) hm h

/-- Two lists are read, then the first of them when every buffer has grown: the offsets that
were added are no offsets at all, and one asks for more numbers than there are. -/
theorem toValues_take_lists :
    let f : Form := .list .i64 (.option .i64 (.flat .int64 ⟨[], some "c"⟩) ⟨[], some "b"⟩)
      ⟨[], some "a"⟩
    let table : Buffers := [("part0-a-offsets", .int64 #[0, 2, 3]),
      ("part0-b-index", .int64 #[1, -1, 0]), ("part0-c-data", .int64 #[5, 6])]
    let table' : Buffers := [("part0-c-data", .int64 #[5, 6, 7]),
      ("part0-a-offsets", .int64 #[0, 2, 3, 99, -4]), ("part0-b-index", .int64 #[1, -1, 0, 8]),
      ("part0-d-data", .int64 #[])]
    table.Extends table' ∧
      f.toValues 2 table "0" = .ok [.list [.int 6, .null], .list [.int 5]] ∧
      f.toValues 1 table' "0" = .ok [.list [.int 6, .null]] := by
  intro f table table'
  have hread : f.toValues 2 table "0" = .ok [.list [.int 6, .null], .list [.int 5]] := by
    simp [f, table, toValues, readColumn, readOffsets, buffer, key?, label, bufferName, lookup,
      Elements.int64, firstDescent?, stringKind?, parameter?, parameters, sizeOfPlaces, readFlat,
      spans, slice, itemAt, sizeBound, maxInt64, ensure, maxValues, maxBytes, FixedWidth.width,
      Except.map, Functor.map]
  have hextends : table.Extends table' :=
    .cons rfl (.int64 ⟨[99, -4], rfl⟩) (.cons rfl (.int64 ⟨[8], rfl⟩)
      (.cons rfl (.int64 ⟨[7], rfl⟩) (.nil table')))
  exact ⟨hextends, hread, toValues_take f table table' "0" 1 2 _ (by decide) hextends hread⟩

end Form

end Columnar
