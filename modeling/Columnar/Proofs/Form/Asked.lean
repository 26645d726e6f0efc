import Columnar.Proofs.Form.Access

/-!
# How much is asked of every node

How many elements of a node are read comes out of the buffers above it: the last offset, one more
than a place, the places under a tag.  So a few bytes can ask for more elements than there is
memory for.  Mostly no buffer is as long, and that is an error; but records without fields need
no buffer to have as many elements as are asked for.

## Main definitions

* `Form.Asks` — reading some elements of a form asks for some elements of a node below.
* `Form.Offers` — a node has as many elements, and none below it has to be read for them.
* `Form.Crowds` — more elements are asked of a node that has them than there is memory for.

## Main results

* `Form.asks_sizeOfPlaces`, `Form.asks_sizesOfTagged` — what places and tags ask for.
-/

namespace Columnar.Form

section Definitions

variable (table : Buffers) (partition : String)

/-- Reading `n` elements of a form asks for `m` elements of a node of it. -/
inductive Asks : Form → Nat → Form → Nat → Prop
  /-- The node itself. -/
  | self (f : Form) (n : Nat) : Asks f n f n
  /-- Items of lists, up to the last offset. -/
  | items {width : IndexWidth} {content : Form} {l : FormLabel} {n m : Nat} {total : Int}
      {g : Form} (hkind : (Form.list width content l).stringKind? = none)
      (htotal : (Form.list width content l).entryAt? table partition "offsets" .int64 n
        = some total)
      (h : Asks content total.toNat g m) : Asks (.list width content l) n g m
  /-- Present elements, up to a place; none, if no place is that of one. -/
  | present {width : IndexWidth} {content : Form} {l : FormLabel} {n size m : Nat} {g : Form}
      (hsize : size = 0 ∨ ∃ i < n, ∃ place, (Form.option width content l).entryAt? table partition
        "index" .int64 i = some place ∧ size = (place + 1).toNat)
      (h : Asks content size g m) : Asks (.option width content l) n g m
  /-- Every column of records or tuples, as far as there are rows. -/
  | row {contents : List Form} {keys : Option (List String)} {l : FormLabel} {n m : Nat}
      {f g : Form} (hf : f ∈ contents) (h : Asks f n g m) : Asks (.record contents keys l) n g m
  /-- Elements of one kind, up to a place under its tag; none, if there is no such place. -/
  | kind {tagWidth width : IndexWidth} {contents : List Form} {l : FormLabel}
      {n tag size m : Nat} {f g : Form} (hf : contents[tag]? = some f)
      (hsize : size = 0 ∨ ∃ i < n, ∃ place,
        (Form.union tagWidth width contents l).entryAt? table partition "tags" .int8 i
          = some (tag : Int) ∧
        (Form.union tagWidth width contents l).entryAt? table partition "index" .int64 i
          = some place ∧ size = place.toNat + 1)
      (h : Asks f size g m) : Asks (.union tagWidth width contents l) n g m

/-- A node has as many elements: one of its own buffers is as long, or it is one of records
without columns. -/
def Offers : Form → Nat → Prop
  | .record contents _ _, _ => contents = []
  | f, m => ∃ key role b, f.key? = some key ∧
      lookup table (bufferName partition key role) = some b ∧ m ≤ b.size

/-- Reading `n` elements of a form asks for more elements of some node than one block of memory
can hold, and the node has them. -/
def Crowds (f : Form) (n : Nat) : Prop :=
  ∃ g m, Asks table partition f n g m ∧ maxValues < m ∧ Offers table partition g m

end Definitions

variable {table : Buffers} {partition : String} {f : Form} {n : Nat}

/-- A buffer that is read has as many elements. -/
theorem offers_of_buffer {α : Type} {role : String} {elements : Elements α} {data : Array α}
    (hsize : ∀ b data, elements.ofBuffer? b = some data → data.size = b.size)
    (h : f.buffer table partition role elements n = .ok data) :
    ∃ key role b, f.key? = some key ∧
      lookup table (bufferName partition key role) = some b ∧ n ≤ b.size := by
  obtain ⟨key, b, whole, hkey, hb, hdata, hle, -⟩ := exists_of_buffer_eq_ok h
  exact ⟨key, role, b, hkey, hb, hsize b whole hdata ▸ hle⟩

/-- Integers of a buffer of words are its elements. -/
theorem size_int64 (b : Buffer) (data : Array Int) (h : Elements.int64.ofBuffer? b = some data) :
    data.size = b.size := by
  cases b <;> cases h
  rfl

/-- The elements of a flat buffer. -/
theorem offers_of_readFlat {primitive : Primitive} {l : FormLabel} {out : Array Value}
    (h : readFlat table partition (.flat primitive l) primitive n = .ok out) :
    Offers table partition (.flat primitive l) n := by
  have hbuffer : ∀ {α : Type} {elements : Elements α} {g : α → Value},
      (∀ b data, elements.ofBuffer? b = some data → data.size = b.size) →
      ((Form.flat primitive l).buffer table partition "data" elements n).map (·.map g) = .ok out →
      Offers table partition (.flat primitive l) n := by
    intro α elements g hsize h
    cases hdata : (Form.flat primitive l).buffer table partition "data" elements n with
    | error e => rw [hdata] at h; cases h
    | ok data => exact offers_of_buffer hsize hdata
  cases primitive <;> exact hbuffer (fun b data h => by cases b <;> cases h; rfl) h

/-- The offsets of lists. -/
theorem offers_of_readOffsets {width : IndexWidth} {content : Form} {l : FormLabel}
    {offsets : Array Int} (hn : n + 1 < sizeBound)
    (h : readOffsets table partition (.list width content l) n = .ok offsets) :
    Offers table partition (.list width content l) n := by
  obtain ⟨data, hbuffer, -⟩ := bind_eq_ok.mp h
  rw [Nat.mod_eq_of_lt hn] at hbuffer
  obtain ⟨key, role, b, hkey, hb, hle⟩ := offers_of_buffer size_int64 hbuffer
  exact ⟨key, role, b, hkey, hb, Nat.le_of_succ_le hle⟩

/-- Where more columns are read than there is memory for, there are none. -/
theorem eq_nil_of_readColumns {fs : List Form} {columns : List (Array Value)}
    (hn : maxValues < n) (h : readColumns table partition fs n = .ok columns) : fs = [] := by
  cases fs with
  | nil => rfl
  | cons f fs =>
    obtain ⟨head, hhead, -⟩ := bind_eq_ok.mp h
    exact absurd hn (Nat.not_lt.mpr (le_maxValues_of_readColumn hhead))

/-- What places ask for: nothing, or one more than one of them. -/
theorem asks_sizeOfPlaces {role : String} {size start : Nat} {places : List Int}
    (h : sizeOfPlaces partition f role start places = .ok size) :
    size = start ∨ ∃ i ∈ places, size = (i + 1).toNat := by
  induction places generalizing start with
  | nil =>
    cases h
    exact .inl rfl
  | cons i rest ih =>
    rw [sizeOfPlaces] at h
    split at h
    · cases h
    · rcases ih h with hsize | ⟨j, hj, hsize⟩
      · rcases Nat.le_total start (i + 1).toNat with hle | hle
        · rw [Nat.max_eq_right hle] at hsize
          exact .inr ⟨i, List.mem_cons_self, hsize⟩
        · rw [Nat.max_eq_left hle] at hsize
          exact .inl hsize
      · exact .inr ⟨j, List.mem_cons_of_mem _ hj, hsize⟩

/-- What tagged places ask for of a child: nothing, or one more than a place under its tag. -/
theorem asks_sizesOfTagged {sizes sizes' : List Nat} {entries : List (Int × Int)} {tag size : Nat}
    (h : sizesOfTagged partition f sizes entries = .ok sizes') (htag : sizes'[tag]? = some size) :
    sizes[tag]? = some size ∨
      ∃ e ∈ entries, e.1 = tag ∧ size = e.2.toNat + 1 := by
  induction entries generalizing sizes with
  | nil =>
    cases h
    exact .inl htag
  | cons e rest ih =>
    obtain ⟨k, i⟩ := e
    rw [sizesOfTagged] at h
    split at h
    · cases h
    · next hk =>
      split at h
      · cases h
      · rcases ih h with hsize | ⟨e, he, hsize⟩
        · rw [List.getElem?_modify] at hsize
          split at hsize
          · next heq =>
            obtain ⟨old, hold, hmax⟩ := Option.map_eq_some_iff.mp hsize
            rcases Nat.le_total old (i.toNat + 1) with hle | hle
            · rw [Nat.max_eq_right hle] at hmax
              exact .inr ⟨_, List.mem_cons_self, by omega, hmax.symm⟩
            · rw [Nat.max_eq_left hle] at hmax
              exact .inl (hmax ▸ hold)
          · exact .inl (by simpa using hsize)
        · exact .inr ⟨e, List.mem_cons_of_mem _ he, hsize⟩

/-! ### Nodes that are asked for the elements of a form -/

namespace Crowds

/-- The node itself. -/
theorem self (hn : maxValues < n) (h : Offers table partition f n) :
    Crowds table partition f n := ⟨f, n, .self f n, hn, h⟩

theorem items {width : IndexWidth} {content : Form} {l : FormLabel} {total : Int}
    (hkind : (Form.list width content l).stringKind? = none)
    (htotal : (Form.list width content l).entryAt? table partition "offsets" .int64 n = some total)
    (h : Crowds table partition content total.toNat) :
    Crowds table partition (.list width content l) n := by
  obtain ⟨g, m, hasks, hm⟩ := h
  exact ⟨g, m, .items hkind htotal hasks, hm⟩

theorem present {width : IndexWidth} {content : Form} {l : FormLabel} {index : Array Int}
    {size : Nat}
    (hindex : (Form.option width content l).buffer table partition "index" .int64 n = .ok index)
    (hsize : sizeOfPlaces partition (.option width content l) "index" 0 index.toList = .ok size)
    (h : Crowds table partition content size) :
    Crowds table partition (.option width content l) n := by
  obtain ⟨g, m, hasks, hm⟩ := h
  obtain ⟨hlen, hentries⟩ := buffer_shows hindex
  refine ⟨g, m, .present ((asks_sizeOfPlaces hsize).imp id ?_) hasks, hm⟩
  rintro ⟨place, hplace, heq⟩
  obtain ⟨i, hi⟩ := List.mem_iff_getElem?.mp hplace
  rw [Array.getElem?_toList] at hi
  have hlt : i < n := hlen ▸ (Array.getElem?_eq_some_iff.mp hi).1
  exact ⟨i, hlt, place, (hentries i hlt).trans hi, heq⟩

theorem row {contents : List Form} {keys : Option (List String)} {l : FormLabel}
    (hf : f ∈ contents) (h : Crowds table partition f n) :
    Crowds table partition (.record contents keys l) n := by
  obtain ⟨g, m, hasks, hm⟩ := h
  exact ⟨g, m, .row hf hasks, hm⟩

theorem kind {tagWidth width : IndexWidth} {contents : List Form} {l : FormLabel}
    {tags index : Array Int} {sizes : List Nat} {tag size : Nat}
    (htags : (Form.union tagWidth width contents l).buffer table partition "tags" .int8 n
      = .ok tags)
    (hindex : (Form.union tagWidth width contents l).buffer table partition "index" .int64 n
      = .ok index)
    (hsizes : sizesOfTagged partition (.union tagWidth width contents l) (contents.map fun _ => 0)
      (tags.toList.zip index.toList) = .ok sizes)
    (hf : contents[tag]? = some f) (hsize : sizes[tag]? = some size)
    (h : Crowds table partition f size) :
    Crowds table partition (.union tagWidth width contents l) n := by
  obtain ⟨g, m, hasks, hm⟩ := h
  obtain ⟨hlen, htagAt⟩ := buffer_shows htags
  obtain ⟨-, hplaceAt⟩ := buffer_shows hindex
  refine ⟨g, m, .kind hf ((asks_sizesOfTagged hsizes hsize).imp ?_ ?_) hasks, hm⟩
  · rw [List.getElem?_map, hf]
    exact fun h => (Option.some.inj h).symm
  · rintro ⟨⟨k, place⟩, he, rfl, heq⟩
    obtain ⟨i, hi⟩ := List.mem_iff_getElem?.mp he
    obtain ⟨hk, hplace⟩ := List.getElem?_zip_eq_some.mp hi
    rw [Array.getElem?_toList] at hk hplace
    have hlt : i < n := hlen ▸ (Array.getElem?_eq_some_iff.mp hk).1
    exact ⟨i, hlt, place, (htagAt i hlt).trans hk, (hplaceAt i hlt).trans hplace, heq⟩

end Crowds

end Columnar.Form
