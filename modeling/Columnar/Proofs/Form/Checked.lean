import Columnar.Proofs.Form.Asked

/-!
# Reading where every step is checked

Reading sizes every node by counts that come out of buffers of others: the last offset, the
greatest place, the places under a tag.  The elements are then taken without a further check.
Here the same reading is written with a check before each such step: that a sum is a word,
that an offset can be taken for a size, that a place, a tag or a span is within what it refers
to.  No check ever fails, so none of them is missed.

One check does fail.  A node of lists needs one offset more than it has lists, and for the
greatest of all lengths there is no such number of offsets.  And there is one thing that no check
comes before: that there is memory for the values of a column.

## Main definitions

* `Buffers.IsTyped` — the integers of every buffer fit its type.
* `Form.readChecked`, `Form.toValuesChecked` — reading that breaks off at a step that is not
  within bounds.
* `Form.hasListRows` — lists are read in the number of elements that is asked of the form.

## Main results

* `Form.readChecked_agrees` — **the checks make no difference.**
* `Form.toValues_spec` — **what is read is an error, or all elements as random access has
  them**, and reading breaks off nowhere but in two cases.
* `Form.toValues_list_greatest`, `Form.toValues_option_rows` — these two cases.
-/

namespace Columnar

/-- The integers of a buffer fit the type of its elements. -/
def Buffer.IsTyped : Buffer → Prop
  | .int8 data => ∀ n ∈ data, -0x80 ≤ n ∧ n ≤ 0x7f
  | .int64 data => ∀ n ∈ data, -maxInt64 - 1 ≤ n ∧ n ≤ maxInt64
  | _ => True

instance : DecidablePred Buffer.IsTyped
  | .int8 data => inferInstanceAs (Decidable (∀ n ∈ data, -0x80 ≤ n ∧ n ≤ 0x7f))
  | .int64 data => inferInstanceAs (Decidable (∀ n ∈ data, -maxInt64 - 1 ≤ n ∧ n ≤ maxInt64))
  | .bool _ | .uint8 _ | .float64 _ | .complex128 _ => inferInstanceAs (Decidable True)

/-- The integers of every buffer in a table fit its type. -/
def Buffers.IsTyped (table : Buffers) : Prop := ∀ e ∈ table, e.2.IsTyped

instance (table : Buffers) : Decidable table.IsTyped :=
  inferInstanceAs (Decidable (∀ e ∈ table, e.2.IsTyped))

namespace Form

/-! ### Checks -/

/-- Two neighbouring offsets cut a run out of `size` elements. -/
abbrev InBounds (size : Nat) (w : Int × Int) : Prop := 0 ≤ w.1 ∧ w.1 ≤ w.2 ∧ w.2 ≤ size

/-- A tag and a place are those of an element of the children. -/
abbrev HasMember (columns : List (Array Value)) (e : Int × Int) : Prop :=
  0 ≤ e.1 ∧ 0 ≤ e.2 ∧ (columns[e.1.toNat]?).any (e.2.toNat < ·.size)

section Reader

variable (table : Buffers) (partition : String)

mutual

/-- The first `length` elements of an array, with a check before every step that could leave
its bounds. -/
def readChecked : Form → Nat → Reading (Array Value)
  | .empty l, length => readColumn table partition (.empty l) length
  | .flat primitive l, length => readColumn table partition (.flat primitive l) length
  | .list width content l, length => do
    let f := Form.list width content l
    -- there is one offset more than there are lists
    ensure (length + 1 < sizeBound)
    let offsets ← readOffsets table partition f length
    match offsets[length]? with
    | none => .error .broken
    | some total =>
      ensure (0 ≤ total ∧ total.toNat < sizeBound)
      match f.stringKind? with
      | some encoding =>
        let bytes ← content.buffer table partition "data" .uint8 total.toNat
        ensure (∀ w ∈ offsets.toList.zip offsets.toList.tail, InBounds bytes.size w)
        let items ← (spans offsets.toList).mapM
          (readString partition content (encoding == .utf8) bytes)
        ensure (length ≤ maxValues)
        return items.toArray
      | none =>
        let items ← readChecked content total.toNat
        ensure (∀ w ∈ offsets.toList.zip offsets.toList.tail, InBounds items.size w)
        ensure (length ≤ maxValues)
        return ((spans offsets.toList).map fun s => Value.list (slice items s)).toArray
  | .option width content l, length => do
    let f := Form.option width content l
    let index ← f.buffer table partition "index" .int64 length
    let size ← sizeOfPlaces partition f "index" 0 index.toList
    ensure (size < sizeBound)
    let items ← readChecked content size
    ensure (∀ i ∈ index.toList, 0 ≤ i → i.toNat < items.size)
    ensure (length ≤ maxValues)
    return index.map (itemAt items)
  | .record contents keys l, length => do
    let columns ← readAllChecked contents (contents.map fun _ => length)
    ensure (∀ column ∈ columns, length ≤ column.size)
    ensure (length ≤ maxValues)
    let name := (lookup l.parameters recordParameter).bind Document.asString?
    return (Array.range length).map fun i => rowValue keys name (row columns i)
  | .union tagWidth width contents l, length => do
    let f := Form.union tagWidth width contents l
    let tags ← f.buffer table partition "tags" .int8 length
    let index ← f.buffer table partition "index" .int64 length
    let entries := tags.toList.zip index.toList
    ensure (∀ i ∈ index.toList, i.toNat + 1 < sizeBound)
    let sizes ← sizesOfTagged partition f (contents.map fun _ => 0) entries
    let columns ← readAllChecked contents sizes
    ensure (∀ e ∈ entries, HasMember columns e)
    ensure (length ≤ maxValues)
    return (entries.map (taggedItem columns)).toArray

/-- The first elements of each of several arrays, a number for each, with the same checks. -/
def readAllChecked : List Form → List Nat → Reading (List (Array Value))
  | f :: fs, n :: ns => do
    let head ← readChecked f n
    return head :: (← readAllChecked fs ns)
  | _, _ => .ok []

end

/-- The first `length` values of an array, with a check before every step that could leave its
bounds. -/
def toValuesChecked (f : Form) (length : Nat) : Reading (List Value) :=
  (readChecked table partition f length).map Array.toList

end Reader

mutual

/-- Lists are read in the number of elements that is asked of the form: it is a node of lists,
or of rows of such nodes. -/
def hasListRows : Form → Bool
  | .list _ _ _ => true
  | .record contents _ _ => anyListRows contents
  | _ => false

/-- Lists are read in the number of elements that is asked of one of the forms. -/
def anyListRows : List Form → Bool
  | [] => false
  | f :: fs => f.hasListRows || anyListRows fs

end

theorem hasListRows_of_mem {fs : List Form} {f : Form} (hf : f ∈ fs)
    (h : f.hasListRows = true) : anyListRows fs = true := by
  induction fs with
  | nil => cases hf
  | cons g fs ih =>
    rw [anyListRows, Bool.or_eq_true]
    rcases List.mem_cons.mp hf with rfl | hf
    · exact .inl h
    · exact .inr (ih hf)

/-! ### Steps that cannot break off -/

/-- A reading with checks comes to the same as one without, which breaks off in one case only. -/
structure Agrees {α : Type} (crowded : Prop) (checked plain : Reading α) : Prop where
  /-- The checks make no difference. -/
  eq : checked = plain
  /-- When the reading breaks off. -/
  of_broken : plain = .error .broken → crowded

/-- A reading in which no step breaks off. -/
abbrev Unbroken {α : Type} (x : Reading α) : Prop := Agrees False x x

section Steps

variable {α β : Type} {checked plain : Reading α} {table : Buffers} {partition : String}
  {f : Form} {n : Nat} {crowded : Prop}

theorem Agrees.ok (a : α) : Agrees crowded (.ok a) (.ok a) := ⟨rfl, nofun⟩

theorem Agrees.fail (f : Form) (cause : ReadCause) :
    Agrees crowded (f.fail cause : Reading α) (f.fail cause) := ⟨rfl, nofun⟩

theorem Agrees.mono {crowded' : Prop} (h : Agrees crowded checked plain)
    (himp : crowded → crowded') : Agrees crowded' checked plain :=
  ⟨h.eq, fun hbroken => himp (h.of_broken hbroken)⟩

/-- Steps one after the other. -/
theorem Agrees.bind {next next' : α → Reading β} (h : Agrees crowded checked plain)
    (hnext : ∀ a, plain = .ok a → Agrees crowded (next a) (next' a)) :
    Agrees crowded (checked >>= next) (plain >>= next') := by
  obtain ⟨rfl, hbroken⟩ := h
  cases checked with
  | ok a => exact hnext a rfl
  | error e => exact ⟨rfl, fun h => hbroken (by cases h; rfl)⟩

/-- A step that never breaks off, and then others. -/
theorem Agrees.then {x : Reading α} {next next' : α → Reading β} (h : Unbroken x)
    (hnext : ∀ a, x = .ok a → Agrees crowded (next a) (next' a)) :
    Agrees crowded (x >>= next) (x >>= next') := (h.mono False.elim).bind hnext

/-- A check that holds before a step. -/
theorem Agrees.ensure {p : Prop} [Decidable p] (h : p) {next : Unit → Reading α}
    (hnext : Agrees crowded (next ()) plain) :
    Agrees crowded (Form.ensure p >>= next) plain := by
  rwa [ensure_bind h]

/-- The values are put together, if there is memory for them. -/
theorem Agrees.collect (h : maxValues < n → crowded) (out : α) :
    Agrees crowded (Form.ensure (n ≤ maxValues) >>= fun _ => pure out)
      (Form.ensure (n ≤ maxValues) >>= fun _ => pure out) := by
  by_cases hn : n ≤ maxValues
  · rw [ensure_bind hn]
    exact .ok out
  · exact ⟨rfl, fun _ => h (Nat.lt_of_not_le hn)⟩

/-- Results that are read one by one. -/
theorem unbroken_mapM {read : α → Reading β} (h : ∀ a, Unbroken (read a)) (l : List α) :
    Unbroken (l.mapM read) := by
  induction l with
  | nil => exact .ok []
  | cons a l ih =>
    rw [List.mapM_cons]
    exact .then (h a) fun b _ => .then ih fun bs _ => .ok _

theorem unbroken_buffer (role : String) (elements : Elements α) :
    Unbroken (f.buffer table partition role elements n) := by
  unfold buffer
  cases f.key? with
  | none => exact .fail f _
  | some key =>
    simp only
    cases lookup table (bufferName partition key role) with
    | none => exact .fail f _
    | some b =>
      simp only
      cases elements.ofBuffer? b with
      | none => exact .fail f _
      | some data =>
        simp only
        split
        · exact .ok _
        · exact .fail f _

theorem unbroken_readFlat (primitive : Primitive) :
    Unbroken (readFlat table partition f primitive n) := by
  cases primitive <;> exact .then (unbroken_buffer "data" _) fun _ _ => .ok _

theorem unbroken_readOffsets : Unbroken (readOffsets table partition f n) := by
  refine .then (unbroken_buffer "offsets" .int64) fun offsets _ => ?_
  cases firstDescent? 0 offsets.toList with
  | none => exact .ok _
  | some x => exact .fail f _

theorem unbroken_readString (isText : Bool) (bytes : Array UInt8) (span : Nat × Nat) :
    Unbroken (readString partition f isText bytes span) := by
  cases isText with
  | false => exact .ok _
  | true =>
    rw [readString, if_pos rfl]
    cases Utf8.decodeString? (slice bytes span) with
    | none => exact .fail f _
    | some s => exact .ok _

theorem unbroken_sizeOfPlaces (role : String) (start : Nat) (places : List Int) :
    Unbroken (sizeOfPlaces partition f role start places) := by
  induction places generalizing start with
  | nil => exact .ok _
  | cons i rest ih =>
    rw [sizeOfPlaces]
    split
    · exact .fail f _
    · exact ih _

theorem unbroken_sizesOfTagged (sizes : List Nat) (entries : List (Int × Int)) :
    Unbroken (sizesOfTagged partition f sizes entries) := by
  induction entries generalizing sizes with
  | nil => exact .ok _
  | cons e rest ih =>
    rw [sizesOfTagged]
    split
    · exact .fail f _
    · split
      · exact .fail f _
      · exact ih _

/-! ### Counts that come out of buffers -/

/-- An entry of a buffer of words is no greater than the greatest of them. -/
theorem entryAt?_le {role : String} {i : Nat} {x : Int} (htable : Buffers.IsTyped table)
    (h : f.entryAt? table partition role .int64 i = some x) : x ≤ maxInt64 := by
  simp only [entryAt?, Option.bind_eq_bind, Option.bind_eq_some_iff] at h
  obtain ⟨key, -, b, hb, data, hdata, hx⟩ := h
  have htyped := htable _ (mem_of_lookup hb)
  cases b with
  | int64 whole =>
    cases hdata
    exact (htyped x (Array.mem_of_getElem? hx)).2
  | _ => cases hdata

theorem le_of_buffer {role : String} {data : Array Int} (htable : Buffers.IsTyped table)
    (h : f.buffer table partition role .int64 n = .ok data) : ∀ x ∈ data, x ≤ maxInt64 := by
  obtain ⟨hsize, hentries⟩ := buffer_shows h
  intro x hx
  obtain ⟨i, hi, rfl⟩ := Array.mem_iff_getElem.mp hx
  refine entryAt?_le htable ((hentries i (hsize ▸ hi)).trans ?_)
  exact Array.getElem?_eq_getElem hi

/-- What places need is no more than a signed word can count. -/
theorem sizeOfPlaces_le {role : String} {size start : Nat} {places : List Int}
    (h : sizeOfPlaces partition f role start places = .ok size)
    (hstart : (start : Int) ≤ maxInt64) : (size : Int) ≤ maxInt64 := by
  induction places generalizing start with
  | nil =>
    cases h
    exact hstart
  | cons i rest ih =>
    rw [sizeOfPlaces] at h
    split at h
    · cases h
    · exact ih h (by omega)

/-- What tagged places need is no more than one above the greatest place. -/
theorem sizesOfTagged_le {sizes sizes' : List Nat} {entries : List (Int × Int)} {bound : Nat}
    (h : sizesOfTagged partition f sizes entries = .ok sizes')
    (hsizes : ∀ size ∈ sizes, size ≤ bound) (hentries : ∀ e ∈ entries, e.2.toNat + 1 ≤ bound) :
    ∀ size ∈ sizes', size ≤ bound := by
  induction entries generalizing sizes with
  | nil =>
    cases h
    exact hsizes
  | cons e rest ih =>
    obtain ⟨tag, i⟩ := e
    obtain ⟨hle, hrest⟩ := List.forall_mem_cons.mp hentries
    rw [sizesOfTagged] at h
    split at h
    · cases h
    · split at h
      · cases h
      · refine ih h (fun size hsize => ?_) hrest
        obtain ⟨k, hk, rfl⟩ := List.mem_iff_getElem.mp hsize
        rw [List.length_modify] at hk
        rw [List.getElem_modify]
        have hold := hsizes _ (List.getElem_mem hk)
        split
        · exact Nat.max_le.mpr ⟨hold, hle⟩
        · exact hold

/-- If lists have one more offset, there is one after the last list. -/
theorem exists_total {offsets : Array Int} (hn : n + 1 < sizeBound)
    (h : readOffsets table partition f n = .ok offsets) : ∃ total, offsets[n]? = some total := by
  obtain ⟨data, hbuffer, h⟩ := bind_eq_ok.mp h
  have hsize := (buffer_shows hbuffer).1
  rw [Nat.mod_eq_of_lt hn] at hsize
  split at h
  · cases h
  · cases h
    exact ⟨_, Array.getElem?_eq_getElem (by omega)⟩

/-- Neighbouring offsets are within what the last of them counts. -/
theorem OffsetsRead.inBounds {offsets : Array Int} {total : Int}
    (h : f.OffsetsRead table partition n offsets) (htotal : offsets[n]? = some total) :
    ∀ w ∈ offsets.toList.zip offsets.toList.tail, InBounds total.toNat w := by
  intro w hw
  obtain ⟨i, hi⟩ := List.mem_iff_getElem?.mp hw
  obtain ⟨hstart, hstop⟩ := List.getElem?_zip_eq_some.mp hi
  rw [List.getElem?_tail, Array.getElem?_toList] at hstop
  rw [Array.getElem?_toList] at hstart
  have hnonneg := h.nonneg hstart
  have hle := h.le (Nat.lt_succ_self i) hstart hstop
  have hlast := h.le_total htotal hstop
  exact ⟨hnonneg, hle, by omega⟩

end Steps

/-! ### Reading -/

variable {table : Buffers} {partition : String}

theorem readColumns_eq_readSized_map (fs : List Form) (n : Nat) :
    readColumns table partition fs n
      = readSized table partition fs (fs.map fun _ => n) := by
  rw [readColumns_eq_readSized, List.map_const']

/-- Several columns, a number of elements of each. -/
theorem agrees_readSized {crowded : Prop} {fs : List Form} {ns : List Nat}
    (h : ∀ (i : Nat) (f : Form) (n : Nat), fs[i]? = some f → ns[i]? = some n →
      Agrees crowded (readChecked table partition f n) (readColumn table partition f n)) :
    Agrees crowded (readAllChecked table partition fs ns) (readSized table partition fs ns) := by
  induction fs generalizing ns with
  | nil => exact Agrees.ok []
  | cons f fs ih =>
    cases ns with
    | nil => exact Agrees.ok []
    | cons n ns =>
      rw [readAllChecked, readSized]
      refine (h 0 f n rfl rfl).bind fun head _ => ?_
      exact (ih fun i g m hg hm => h (i + 1) g m hg hm).bind fun rest _ => .ok _

/-- **The checks make no difference**, if there is one more than the number of elements wherever
lists are read in that number; and then reading breaks off only where more elements are asked of
a node than there is memory for. -/
theorem readChecked_agrees (htable : Buffers.IsTyped table) (f : Form) (n : Nat)
    (hn : n < sizeBound) (hlists : f.hasListRows → n + 1 < sizeBound) :
    Agrees (Crowds table partition f n) (readChecked table partition f n)
      (readColumn table partition f n) := by
  have hmax : maxInt64.toNat + 2 < sizeBound := by decide
  induction f using induct generalizing n with
  | node f ih =>
    cases f with
    | empty l =>
      rw [readChecked, readColumn]
      split
      · exact .ok _
      · exact .fail _ _
    | flat primitive l =>
      rw [readChecked, readColumn]
      refine .then (unbroken_readFlat primitive) fun items hitems => ?_
      exact .collect (fun hroom => .self hroom (offers_of_readFlat hitems)) items
    | list width content l =>
      have hsucc := hlists rfl
      rw [readChecked, readColumn]
      refine .ensure hsucc (.then unbroken_readOffsets fun offsets hoffsets => ?_)
      obtain ⟨total, htotal⟩ := exists_total hsucc hoffsets
      have hread := readOffsets_shows hoffsets htotal
      have hbounds := hread.inBounds htotal
      have hnonneg := hread.nonneg htotal
      have hlast := (hread.entries n (Nat.le_refl n)).trans htotal
      have hle := entryAt?_le htable hlast
      have hself (hroom : maxValues < n) : Crowds table partition (.list width content l) n :=
        .self hroom (offers_of_readOffsets hsucc hoffsets)
      rw [htotal]
      refine .ensure (by omega) ?_
      cases hkind : (Form.list width content l).stringKind? with
      | some encoding =>
        refine .then (unbroken_buffer "data" .uint8) fun bytes hbytes => ?_
        rw [← (buffer_shows hbytes).1] at hbounds
        refine .ensure hbounds ?_
        exact .then (unbroken_mapM (unbroken_readString _ _) _) fun strings _ =>
          .collect hself strings.toArray
      | none =>
        refine ((ih content (List.mem_singleton_self _) total.toNat (by omega)
          (fun _ => by omega)).mono (.items hkind hlast)).bind fun items hitems => ?_
        rw [← (readColumn_shows _ _ _ hitems).1] at hbounds
        exact .ensure hbounds (.collect hself _)
    | option width content l =>
      rw [readChecked, readColumn]
      refine .then (unbroken_buffer "index" .int64) fun index hindex => ?_
      refine .then (unbroken_sizeOfPlaces "index" 0 _) fun size hsize => ?_
      have hle := sizeOfPlaces_le hsize (by decide)
      refine .ensure (by omega) ?_
      refine ((ih content (List.mem_singleton_self _) size (by omega)
        (fun _ => by omega)).mono (.present hindex hsize)).bind fun items hitems => ?_
      have hplaces := (lt_sizeOfPlaces hsize).2
      rw [← (readColumn_shows _ _ _ hitems).1] at hplaces
      exact .ensure hplaces
        (.collect (fun hroom => .self hroom (offers_of_buffer size_int64 hindex)) _)
    | record fs keys l =>
      rw [readChecked, readColumn, readColumns_eq_readSized_map]
      refine (agrees_readSized fun i f m hf hm => ?_).bind fun columns hcolumns => ?_
      · have hmem := List.mem_of_getElem? hf
        simp only [List.getElem?_map, hf, Option.map_some, Option.some.injEq] at hm
        subst hm
        exact (ih f hmem n hn fun hf => hlists (hasListRows_of_mem hmem hf)).mono (.row hmem)
      · rw [← readColumns_eq_readSized_map] at hcolumns
        have hall := readColumns_shows (fun f _ => readColumn_shows f) hcolumns
        refine .ensure (fun column hcolumn => ?_) (.collect (fun hroom => .self hroom ?_) _)
        · obtain ⟨i, hi, rfl⟩ := List.mem_iff_getElem.mp hcolumn
          exact Nat.le_of_eq (hall.get (hall.length_eq ▸ hi) hi).1.symm
        · exact eq_nil_of_readColumns hroom hcolumns
    | union tagWidth width fs l =>
      rw [readChecked, readColumn]
      refine .then (unbroken_buffer "tags" .int8) fun tags htags => ?_
      refine .then (unbroken_buffer "index" .int64) fun index hindex => ?_
      have hwords : ∀ i ∈ index.toList, i.toNat ≤ maxInt64.toNat := fun i hi =>
        Int.toNat_le_toNat (le_of_buffer htable hindex i (Array.mem_toList_iff.mp hi))
      refine .ensure (fun i hi => by have hle := hwords i hi; omega) ?_
      refine .then (unbroken_sizesOfTagged _ _) fun sizes hsizes => ?_
      have hle : ∀ size ∈ sizes, size ≤ maxInt64.toNat + 1 := sizesOfTagged_le hsizes (by simp)
        fun e he => Nat.succ_le_succ (hwords _ (List.of_mem_zip he).2)
      refine (agrees_readSized fun i f m hf hm => ?_).bind fun columns hcolumns => ?_
      · have hword := hle m (List.mem_of_getElem? hm)
        exact (ih f (List.mem_of_getElem? hf) m (by omega) (fun _ => by omega)).mono
          (.kind htags hindex hsizes hf hm)
      · have hlen : fs.length = sizes.length := by
          rw [(lt_sizesOfTagged hsizes).1, List.length_map]
        have hall := readSized_shows (fun f _ => readColumn_shows f) hlen hcolumns
        refine .ensure (fun e he => ?_)
          (.collect (fun hroom => .self hroom (offers_of_buffer size_int64 hindex)) _)
        obtain ⟨htag, hplace, column, hcolumn, hlt, -⟩ := exists_member hsizes hall he
        exact ⟨htag, hplace, by simpa [hcolumn] using hlt⟩

/-- **What is read is an error, or all elements as random access has them.**  For every form,
every table of buffers and every length that is a word, reading gives an error, or as many values
as were asked for, each the one that random access leads to; and no step before that is out of
bounds.  There are two exceptions.  The greatest length has no number of offsets, where it is
asked of lists; and reading breaks off where one block of memory cannot hold the values that a
node is asked for and has. -/
theorem toValues_spec (f : Form) (htable : Buffers.IsTyped table) (partition : String) (n : Nat)
    (hn : n < sizeBound) :
    (¬ (f.hasListRows ∧ n + 1 = sizeBound) →
      f.toValuesChecked table partition n = f.toValues n table partition) ∧
      ((∃ e, f.toValues n table partition = .error (.error e)) ∨
        (∃ vals, f.toValues n table partition = .ok vals ∧ vals.length = n ∧
          ∀ i < n, vals[i]? = f.valueAt? table partition i) ∨
        f.toValues n table partition = .error .broken ∧
          (f.hasListRows ∧ n + 1 = sizeBound ∨ f.Crowds table partition n)) := by
  have hagrees (hlists : ¬ (f.hasListRows ∧ n + 1 = sizeBound)) :
      Agrees (f.Crowds table partition n) (readChecked table partition f n)
        (readColumn table partition f n) :=
    readChecked_agrees htable f n hn fun hf =>
      Nat.lt_of_le_of_ne hn fun heq => hlists ⟨hf, heq⟩
  refine ⟨fun hlists => congrArg (Except.map Array.toList) (hagrees hlists).eq, ?_⟩
  cases hread : f.toValues n table partition with
  | ok vals =>
    obtain ⟨hlen, hvalues⟩ := toValues_shows hread
    exact .inr (.inl ⟨vals, rfl, hlen, fun i hi => (hvalues i hi).symm⟩)
  | error e =>
    cases e with
    | error e => exact .inl ⟨e, rfl⟩
    | broken =>
      refine .inr (.inr ⟨rfl, or_iff_not_imp_left.mpr fun hlists => ?_⟩)
      refine (hagrees hlists).of_broken ?_
      rw [toValues] at hread
      cases hcolumn : readColumn table partition f n with
      | ok out => rw [hcolumn] at hread; cases hread
      | error e =>
        rw [hcolumn] at hread
        cases hread
        rfl

/-- Lists of numbers that may be missing: the offsets begin in the middle of the numbers, and
the places go back and forth. -/
theorem toValues_spec_lists :
    let f : Form := .list .i64 (.option .i64 (.flat .int64 ⟨[], some "c"⟩) ⟨[], some "b"⟩)
      ⟨[], some "a"⟩
    let table : Buffers := [("part0-a-offsets", .int64 #[1, 1, 3]),
      ("part0-b-index", .int64 #[0, 2, -1]), ("part0-c-data", .int64 #[5, 6, 7])]
    table.IsTyped ∧ f.toValues 2 table "0" = .ok [.list [], .list [.int 7, .null]] ∧
      f.valueAt? table "0" 1 = some (.list [.int 7, .null]) := by
  intro f table
  have htable : table.IsTyped := by decide
  have hread : f.toValues 2 table "0" = .ok [.list [], .list [.int 7, .null]] := by
    simp [f, table, toValues, readColumn, readOffsets, buffer, key?, label, bufferName, lookup,
      Elements.int64, firstDescent?, stringKind?, parameter?, parameters, sizeOfPlaces, readFlat,
      spans, slice, itemAt, sizeBound, maxInt64, ensure, maxValues, maxBytes, FixedWidth.width,
      Except.map, Functor.map]
  rcases (toValues_spec f htable "0" 2 (by decide)).2 with
    ⟨e, he⟩ | ⟨vals, hvals, -, hat⟩ | ⟨hbroken, -⟩
  · rw [hread] at he
    cases he
  · rw [hread] at hvals
    cases hvals
    exact ⟨htable, hread, (hat 1 (by decide)).symm⟩
  · rw [hread] at hbroken
    cases hbroken

/-- For the greatest of all lengths there is no number of offsets: with no offset to look at,
reading breaks off. -/
theorem toValues_list_greatest {width : IndexWidth} {content : Form} {l : FormLabel}
    {key : String} {offsets : Array Int} (hkey : l.key? = some key)
    (hb : lookup table (bufferName partition key "offsets") = some (.int64 offsets)) :
    (Form.list width content l).toValues (sizeBound - 1) table partition = .error .broken := by
  have hmod : (sizeBound - 1 + 1) % sizeBound = 0 := by decide
  have hoffsets : readOffsets table partition (.list width content l) (sizeBound - 1)
      = .ok #[] := by
    rw [readOffsets, hmod, buffer_eq_ok (f := .list width content l) hkey hb rfl (Nat.zero_le _)]
    simp [firstDescent?]
  rw [toValues, readColumn, hoffsets]
  rfl

/-- A place that stands for more records than there is memory for: if they have no fields, there
is no buffer to be too short, and reading breaks off. -/
theorem toValues_option_rows {width : IndexWidth} {keys : Option (List String)}
    {l l' : FormLabel} {key : String} {place : Int} (hkey : l.key? = some key)
    (hb : lookup table (bufferName partition key "index") = some (.int64 #[place]))
    (hplace : place < maxInt64) (hroom : maxValues ≤ place.toNat) :
    (Form.option width (.record [] keys l') l).toValues 1 table partition = .error .broken := by
  have hindex : (Form.option width (.record [] keys l') l).buffer table partition "index" .int64 1
      = .ok #[place] := by
    rw [buffer_eq_ok (f := .option width (.record [] keys l') l) hkey hb rfl (Nat.le_refl 1)]
    rfl
  have hpos : 0 < maxValues := by decide
  have hsize : max 0 (place + 1).toNat = place.toNat + 1 := by omega
  rw [toValues, readColumn, hindex, ok_bind]
  simp only [sizeOfPlaces, if_neg (Int.not_le.mpr hplace), hsize, ok_bind]
  rw [readColumn, readColumns, ok_bind, ensure, if_neg (by omega)]
  rfl

/-- Lists without items, in a buffer of one offset, at the greatest length; and one record without
fields, at the last place but one: neither an error nor values come of either. -/
theorem toValues_breaks :
    (let f : Form := .list .i64 (.empty ⟨[], some "node1"⟩) ⟨[], some "node0"⟩
      let table : Buffers := [("part0-node0-offsets", .int64 #[0])]
      table.IsTyped ∧ sizeBound - 1 < sizeBound ∧
        ¬ ((∃ e, f.toValues (sizeBound - 1) table "0" = .error (.error e)) ∨
          ∃ vals, f.toValues (sizeBound - 1) table "0" = .ok vals)) ∧
    (let f : Form := .option .i64 (.record [] none ⟨[], some "node1"⟩) ⟨[], some "node0"⟩
      let table : Buffers := [("part0-node0-index", .int64 #[maxInt64 - 1])]
      table.IsTyped ∧ ¬ ((∃ e, f.toValues 1 table "0" = .error (.error e)) ∨
        ∃ vals, f.toValues 1 table "0" = .ok vals)) := by
  constructor
  · intro f table
    have hbroken : f.toValues (sizeBound - 1) table "0" = .error .broken :=
      toValues_list_greatest rfl rfl
    rw [hbroken]
    exact ⟨by decide, by decide, by simp⟩
  · intro f table
    have hbroken : f.toValues 1 table "0" = .error .broken :=
      toValues_option_rows rfl rfl (by decide) (by decide)
    rw [hbroken]
    exact ⟨by decide, by simp⟩

end Form

end Columnar
