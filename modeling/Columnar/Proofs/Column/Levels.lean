import Mathlib.Data.Finset.Filter
import Mathlib.Data.Finset.Range
import Mathlib.Data.Finset.Dedup
import Columnar.Proofs.Column.Preservation

/-!
# The open containers of a column

A column keeps no stack.  Which containers are open is read off the tree, on the way down from
the root to the place where the next element goes; and every push that is taken changes what
is read there as the stack machine says.

## Main definitions

* `Column.inner?` — the column below that a push passes to.
* `Column.level?`, `Column.levels` — the container that a column has open, and all that are
  open in it.

## Main results

* `Column.levels_eq_nil` — nothing is open in a column that is not open.
* `Column.Takes.step` — **a push that is taken is a step of the stack machine.**
-/

namespace Columnar.Column

variable {o : Options} {p : Push}

/-! ### Reading the levels -/

/-- The column below that a push passes to. -/
def inner? : Column → Option Column
  | .option _ content => some content
  | .list _ content true => some content
  | .tuple slots _ (.filling (some i)) => slots[i]?
  | .record _ fields _ (.filling (some i)) _ _ => (columnsOf fields)[i]?
  | .union _ _ children (some tag) => children[tag]?
  | _ => none

/-- The slots that hold a value for the element that is being filled. -/
def filledSlots (slots : List Column) (n : Nat) : Finset Nat :=
  (Finset.range slots.length).filter fun i => n < lengthAt slots i

/-- The fields that hold a value for the element that is being filled. -/
def filledKeys (fields : List (String × Column)) (n : Nat) : Finset String :=
  ((fields.filter fun f => decide (n < f.2.length)).map Prod.fst).toFinset

/-- The container that a column itself has open. -/
def level? : Column → Option Level
  | .list _ _ true => some .list
  | .tuple slots n (.filling slot) => some (.tuple slots.length slot (filledSlots slots n))
  | .record _ fields n (.filling slot) _ _ =>
    some (.record (slot.bind fun i => (fields.map Prod.fst)[i]?) (filledKeys fields n))
  | _ => none

theorem mem_children_of_inner? {c d : Column} (h : c.inner? = some d) : d ∈ c.children := by
  unfold inner? at h
  split at h <;> try cases h
  · exact List.mem_singleton_self _
  · exact List.mem_singleton_self _
  · exact List.mem_of_getElem? h
  · exact List.mem_of_getElem? h
  · exact List.mem_of_getElem? h

/-- The containers that are open in a column, the innermost first. -/
def levels (c : Column) : List Level :=
  (match _h : c.inner? with
    | some d => levels d
    | none => []) ++ c.level?.toList
termination_by sizeOf c
decreasing_by exact sizeOf_lt_of_mem_children (mem_children_of_inner? _h)

theorem levels_eq (c : Column) : c.levels = c.inner?.elim [] levels ++ c.level?.toList := by
  rw [levels]
  split
  · next h => rw [h]; rfl
  · next h => rw [h]; rfl

@[simp] theorem levels_option (index : Array (Option Nat)) (content : Column) :
    (Column.option index content).levels = content.levels := by
  rw [levels_eq]
  exact List.append_nil _

@[simp] theorem levels_list_open (offsets : Array Nat) (content : Column) :
    (Column.list offsets content true).levels = content.levels ++ [.list] := by
  rw [levels_eq]
  rfl

theorem levels_tuple {slots : List Column} {n i : Nat} {c : Column} (hc : slots[i]? = some c) :
    (Column.tuple slots n (.filling (some i))).levels
      = c.levels ++ [.tuple slots.length (some i) (filledSlots slots n)] := by
  rw [levels_eq, inner?, hc]
  rfl

theorem levels_record {name : Option String} {fields : List (String × Column)} {n i : Nat}
    {settled declared : Bool} {c : Column} (hc : (columnsOf fields)[i]? = some c) :
    (Column.record name fields n (.filling (some i)) settled declared).levels
      = c.levels ++ [.record (fields.map Prod.fst)[i]? (filledKeys fields n)] := by
  rw [levels_eq, inner?, hc]
  rfl

theorem levels_tuple_none (slots : List Column) (n : Nat) :
    (Column.tuple slots n (.filling none)).levels
      = [.tuple slots.length none (filledSlots slots n)] := by
  rw [levels_eq]
  rfl

theorem levels_record_none (name : Option String) (fields : List (String × Column)) (n : Nat)
    (settled declared : Bool) :
    (Column.record name fields n (.filling none) settled declared).levels
      = [.record none (filledKeys fields n)] := by
  rw [levels_eq]
  rfl

theorem levels_union {tags index : Array Nat} {children : List Column} {tag : Nat} {c : Column}
    (hc : children[tag]? = some c) :
    (Column.union tags index children (some tag)).levels = c.levels := by
  rw [levels_eq, inner?, hc]
  exact List.append_nil _

/-- Nothing is open in a column that is not open. -/
theorem levels_eq_nil {c : Column} (ha : c.isActive = false) : c.levels = [] := by
  induction c using Column.induct with
  | node c ih =>
    cases c with
    | option index content =>
      rw [levels_option]
      exact ih content (List.mem_singleton_self _) ha
    | list offsets content isOpen =>
      cases isOpen with
      | true => cases ha
      | false => rw [levels_eq]; rfl
    | tuple slots n filling =>
      cases filling with
      | filling slot => cases ha
      | closed => rw [levels_eq]; rfl
    | record name fields n filling settled declared =>
      cases filling with
      | filling slot => cases ha
      | closed => rw [levels_eq]; rfl
    | union tags index children current =>
      cases current with
      | some tag => cases ha
      | none => rw [levels_eq]; rfl
    | _ => rw [levels_eq]; rfl

/-- Something is open in a column that is open. -/
theorem levels_ne_nil {c : Column} (hs : c.Sound) (ha : c.isActive = true) : c.levels ≠ [] := by
  induction c using Column.induct with
  | node c ih =>
    cases c with
    | option index content =>
      have hmem := List.mem_singleton_self content
      rw [levels_option]
      exact ih content hmem (hs.children content hmem) ha
    | union tags index children current =>
      obtain ⟨tag, rfl⟩ := Option.isSome_iff_exists.mp ha
      have hunion : UnionSound tags index children (some tag) := hs.node
      have hc := List.getElem?_eq_getElem (hunion.last tag rfl).1
      have hmem := List.mem_of_getElem? hc
      rw [levels_union hc]
      exact ih _ hmem (hs.children _ hmem) ((hunion.active_iff tag _ hc).mpr rfl)
    | list offsets content isOpen =>
      cases isOpen with
      | true => simp
      | false => cases ha
    | tuple slots n filling =>
      cases filling with
      | filling slot => rw [levels_eq]; simp [level?]
      | closed => cases ha
    | record name fields n filling settled declared =>
      cases filling with
      | filling slot => rw [levels_eq]; simp [level?]
      | closed => cases ha
    | _ => cases ha

theorem levels_eq_nil_iff {c : Column} (hs : c.Sound) : c.levels = [] ↔ c.isActive = false := by
  refine ⟨fun h => ?_, levels_eq_nil⟩
  by_contra ha
  exact levels_ne_nil hs (by simpa using ha) h

/-! ### Slots that hold a value -/

theorem mem_filledSlots {slots : List Column} {n i : Nat} :
    i ∈ filledSlots slots n ↔ ∃ c, slots[i]? = some c ∧ n < c.length := by
  rw [filledSlots, Finset.mem_filter, Finset.mem_range, lengthAt_eq]
  constructor
  · rintro ⟨hi, hlt⟩
    rw [List.getElem?_eq_getElem hi] at hlt
    exact ⟨_, List.getElem?_eq_getElem hi, hlt⟩
  · rintro ⟨c, hc, hlt⟩
    rw [hc]
    exact ⟨(List.getElem?_eq_some_iff.mp hc).1, hlt⟩

theorem mem_filledKeys {fields : List (String × Column)} {n : Nat} {key : String} :
    key ∈ filledKeys fields n ↔ ∃ c, (key, c) ∈ fields ∧ n < c.length := by
  simp [filledKeys]

theorem mem_filledSlots_iff {slots : List Column} {n i : Nat} :
    i ∈ filledSlots slots n ↔ n < lengthAt slots i := by
  rw [mem_filledSlots, lengthAt_eq]
  cases slots[i]? <;> simp

theorem mem_filledKeys_iff {fields : List (String × Column)} {n i : Nat} {key : String}
    (hnd : (fields.map Prod.fst).Nodup) (hkey : (fields.map Prod.fst)[i]? = some key) :
    key ∈ filledKeys fields n ↔ n < lengthAt (columnsOf fields) i := by
  obtain ⟨⟨k, c⟩, hf, rfl⟩ := Option.map_eq_some_iff.mp ((List.getElem?_map ..).symm.trans hkey)
  have hmem := List.mem_of_getElem? hf
  have hlen : lengthAt (columnsOf fields) i = c.length := by
    rw [lengthAt_eq, columnsOf_getElem?, hf]
    rfl
  rw [mem_filledKeys, hlen]
  constructor
  · rintro ⟨d, hd, hlt⟩
    have heq := (lookup_of_mem hnd hmem).symm.trans (lookup_of_mem hnd hd)
    rwa [Option.some.inj heq]
  · intro hlt
    exact ⟨c, hmem, hlt⟩

theorem not_mem_filledSlots {slots : List Column} {n i : Nat} {c : Column}
    (hc : slots[i]? = some c) (hlen : c.length ≤ n) : i ∉ filledSlots slots n := by
  intro h
  obtain ⟨d, hd, hlt⟩ := mem_filledSlots.mp h
  rw [hc] at hd
  cases hd
  omega

theorem not_mem_filledKeys {fields : List (String × Column)} {n : Nat} {key : String}
    {c : Column} (hnd : (fields.map Prod.fst).Nodup) (hc : (key, c) ∈ fields)
    (hlen : c.length ≤ n) : key ∉ filledKeys fields n := by
  intro h
  obtain ⟨d, hd, hlt⟩ := mem_filledKeys.mp h
  have heq : c = d := by
    have := (lookup_of_mem hnd hc).symm.trans (lookup_of_mem hnd hd)
    exact Option.some.inj this
  subst heq
  omega

/-- No slot holds a value for an element that has just begun. -/
theorem filledSlots_eq_empty {slots : List Column} {n : Nat} (h : ∀ c ∈ slots, c.length ≤ n) :
    filledSlots slots n = ∅ := by
  rw [Finset.eq_empty_iff_forall_notMem]
  intro i hi
  obtain ⟨c, hc, hlt⟩ := mem_filledSlots.mp hi
  have := h c (List.mem_of_getElem? hc)
  omega

theorem filledKeys_eq_empty {fields : List (String × Column)} {n : Nat}
    (h : ∀ c ∈ columnsOf fields, c.length ≤ n) : filledKeys fields n = ∅ := by
  rw [Finset.eq_empty_iff_forall_notMem]
  intro key hkey
  obtain ⟨c, hc, hlt⟩ := mem_filledKeys.mp hkey
  have := h c (List.mem_map_of_mem (f := Prod.snd) hc)
  omega

/-- The selected slot holds a value once its element is complete. -/
theorem filledSlots_set {slots : List Column} {n i : Nat} {c c' : Column}
    (hc : slots[i]? = some c) (hlen : c.length ≤ n) :
    filledSlots (slots.set i c') n
      = if n < c'.length then insert i (filledSlots slots n) else filledSlots slots n := by
  have hi := (List.getElem?_eq_some_iff.mp hc).1
  have hnot := not_mem_filledSlots hc hlen
  ext j
  by_cases hij : i = j
  · subst hij
    rw [mem_filledSlots, List.getElem?_set_self hi]
    split <;> simp_all
  · rw [mem_filledSlots, List.getElem?_set_ne hij, ← mem_filledSlots]
    split
    · simp [Ne.symm hij]
    · rfl

theorem filledKeys_setField {fields : List (String × Column)} {n i : Nat} {key : String}
    {c c' : Column} (hnd : (fields.map Prod.fst).Nodup)
    (hkey : (fields.map Prod.fst)[i]? = some key) (hc : (columnsOf fields)[i]? = some c)
    (hlen : c.length ≤ n) :
    filledKeys (setField fields i c') n
      = if n < c'.length then insert key (filledKeys fields n) else filledKeys fields n := by
  have hnot := not_mem_filledKeys hnd (mem_fields hkey hc) hlen
  ext k
  rw [mem_filledKeys]
  simp only [mem_setField hnd hkey]
  by_cases hk : k = key
  · subst hk
    split <;> simp_all
  · have hmem : k ∈ insert key (filledKeys fields n) ↔ k ∈ filledKeys fields n := by simp [hk]
    simp only [hk, false_and, ne_eq, not_false_eq_true, true_and, false_or]
    rw [← mem_filledKeys]
    split
    · exact hmem.symm
    · rfl

/-- A new field holds no value yet. -/
theorem filledKeys_concat (fields : List (String × Column)) (n : Nat) (key : String) :
    filledKeys (fields ++ [(key, .unknown n)]) n = filledKeys fields n := by
  ext k
  rw [mem_filledKeys, mem_filledKeys]
  constructor
  · rintro ⟨c, hc, hlt⟩
    rcases List.mem_append.mp hc with hc | hc
    · exact ⟨c, hc, hlt⟩
    · cases List.mem_singleton.mp hc
      exact absurd hlt (Nat.lt_irrefl n)
  · rintro ⟨c, hc, hlt⟩
    exact ⟨c, List.mem_append_left _ hc, hlt⟩

/-! ### Elements that begin -/

theorem levels_first {k : ElementClass} (hp : p.elementClass? = some k) :
    (first o p).levels = (Level.opened? p).toList := by
  cases p with
  | beginList =>
    change (list #[0] (unknown 0) true).levels = _
    rw [levels_list_open, levels_eq_nil rfl]
    rfl
  | beginTuple n =>
    rw [first_beginTuple, levels_tuple_none, List.length_replicate, filledSlots_eq_empty]
    · rfl
    · intro c hc
      rw [List.eq_of_mem_replicate hc]
      rfl
  | beginRecord name =>
    obtain ⟨fields, settled, declared, he, hu, -⟩ := exists_first_beginRecord o name
    rw [he, levels_record_none, filledKeys_eq_empty]
    · rfl
    · intro c hc
      rw [hu c hc]
      rfl
  | _ => exact levels_eq_nil rfl

/-- The slots of closed rows have no value more. -/
theorem SlotsSound.length_le {slots : List Column} {n : Nat} {filling : Filling}
    (h : SlotsSound slots n filling) (hf : filling.isOpen = false) : ∀ c ∈ slots, c.length ≤ n := by
  intro c hc
  rcases h.length c hc with hlen | ⟨hopen, -⟩
  · exact Nat.le_of_eq hlen
  · rw [hf] at hopen
    cases hopen

theorem levels_accept {c : Column} {k : ElementClass} (hs : c.Sound) (ha : c.isActive = false)
    (hp : p.elementClass? = some k) (hk : c.class? = some k) :
    (c.accept p).levels = (Level.opened? p).toList := by
  cases c with
  | unknown | option | union => cases hk
  | list offsets content isOpen =>
    obtain rfl : isOpen = false := ha
    have hcontent : content.isActive = false := by
      by_contra h
      cases hs.node.content (by simpa using h)
    cases p <;> cases hk <;> cases hp
    rw [accept, levels_list_open, levels_eq_nil hcontent]
    rfl
  | tuple slots n filling =>
    have hslots : SlotsSound slots n filling := hs.node
    cases p <;> cases hk <;> cases hp
    rw [accept, levels_tuple_none, filledSlots_eq_empty (hslots.length_le ha)]
    rfl
  | record name fields n filling settled declared =>
    have hslots : SlotsSound (columnsOf fields) n filling := hs.node.1
    cases p <;> cases hk <;> cases hp
    rw [accept, levels_record_none, filledKeys_eq_empty (hslots.length_le ha)]
    rfl
  | _ => cases p <;> cases hk <;> cases hp <;> exact levels_eq_nil rfl

theorem levels_afterNulls (n : Nat) (c : Column) : (afterNulls n c).levels = c.levels := by
  unfold afterNulls
  split
  · rfl
  · exact levels_option _ _

/-- What is open in a union is what is open in the child that took the last element. -/
theorem levels_openTag {tags index : Array Nat} {children : List Column} {tag : Nat} {c : Column}
    (hc : children[tag]? = some c) :
    (Column.union tags index children (openTag tag c)).levels = c.levels := by
  cases ha : c.isActive with
  | true => rw [openTag, if_pos ha, levels_union hc]
  | false =>
    rw [openTag, if_neg (by simp [ha]), levels_eq_nil ha, levels_eq_nil rfl]

theorem levels_addChild (tags index : Array Nat) (children : List Column) (c : Column) :
    (addChild tags index children c).levels = c.levels :=
  levels_openTag (by simp)

/-! ### Every rule -/

theorem Takes.inner_or_begins {c c' : Column} (hs : c.Sound) (h : Takes o c p c') :
    c.levels ≠ [] ∨ p.Begins := by
  cases ha : c.isActive with
  | true => exact .inl (levels_ne_nil hs ha)
  | false => exact .inr (h.begins ha)

/-- The levels of an open tuple none of whose slots is open. -/
theorem levels_tuple_idle {slots : List Column} {n : Nat} {slot : Option Nat}
    (hs : SlotsSound slots n (.filling slot)) (ha : isSlotActive slots (.filling slot) = false) :
    (Column.tuple slots n (.filling slot)).levels
      = [.tuple slots.length slot (filledSlots slots n)] := by
  cases slot with
  | none => exact levels_tuple_none slots n
  | some i =>
    have hc := List.getElem?_eq_getElem (hs.selected i rfl)
    rw [levels_tuple hc, levels_eq_nil (hs.not_active ha (List.mem_of_getElem? hc))]
    rfl

theorem levels_record_idle {name : Option String} {fields : List (String × Column)} {n : Nat}
    {slot : Option Nat} {settled declared : Bool}
    (hs : SlotsSound (columnsOf fields) n (.filling slot))
    (ha : isSlotActive (columnsOf fields) (.filling slot) = false) :
    (Column.record name fields n (.filling slot) settled declared).levels
      = [.record (slot.bind fun i => (fields.map Prod.fst)[i]?) (filledKeys fields n)] := by
  cases slot with
  | none => exact levels_record_none name fields n settled declared
  | some i =>
    have hc := List.getElem?_eq_getElem (hs.selected i rfl)
    rw [levels_record hc, levels_eq_nil (hs.not_active ha (List.mem_of_getElem? hc))]
    rfl

/-- The slot that takes a push has a value once nothing is open in it. -/
theorem Takes.lt_length_iff {slots : List Column} {n i : Nat} {c c' : Column}
    (hslots : SlotsSound slots n (.filling (some i))) (hc : slots[i]? = some c)
    (hlen : c.length ≤ n) (hs : c.Sound) (h : Takes o c p c') :
    n < c'.length ↔ c'.levels = [] := by
  have hadd := h.length_add hs
  have hn : c.length = n := by
    rcases hslots.length c (List.mem_of_getElem? hc) with hl | ⟨-, hl⟩ <;> omega
  rw [levels_eq_nil_iff (hs.takes h)]
  cases ha : c'.isActive <;> rw [ha] at hadd <;> simp at hadd ⊢ <;> omega

/-- **A push that is taken is a step of the stack machine.** -/
theorem Takes.step {c c' : Column} (hs : c.Sound) (h : Takes o c p c') :
    Level.Step c.levels p c'.levels := by
  -- The induction is on the rules.  A child that takes the push makes a step by induction; its
  -- parent adds a level below, which is filled once the child's element is complete.
  have hidle : ∀ {d d' : Column} {q : Push}, d.isActive = false → q.Begins →
      d'.levels = (Level.opened? q).toList → Level.Step d.levels q d'.levels := by
    intro d d' q hd hq hd'
    rw [levels_eq_nil hd, hd']
    exact Level.step_of_begins hq
  induction h with
  | unknown_null n => exact hidle rfl (.inl rfl) (levels_eq_nil rfl)
  | unknown_first n hp =>
    exact hidle rfl (.inr ⟨_, hp⟩) (by rw [levels_afterNulls, levels_first hp])
  | option_null hc => exact hidle hc (.inl rfl) (levels_eq_nil hc)
  | @option_present index content content' _ _ _ _ _ ih =>
    rw [levels_option, levels_option]
    exact ih (hs.children content (List.mem_singleton_self _))
  | @option_open index content content' _ _ _ ih =>
    rw [levels_option, levels_option]
    exact ih (hs.children content (List.mem_singleton_self _))
  | first_null hc => exact hidle hc (.inl rfl) (levels_eq_nil hc)
  | own hc hp hk => exact hidle hc (.inr ⟨_, hp⟩) (levels_accept hs hc hp hk)
  | other hc hp _ _ =>
    exact hidle hc (.inr ⟨_, hp⟩) (by rw [joinedBy, levels_addChild, levels_first hp])
  | @list_end offsets content hc =>
    rw [levels_list_open, levels_eq_nil hc, levels_eq_nil rfl]
    exact ⟨rfl, rfl⟩
  | @list_item offsets content content' p h ih =>
    have hcontent := hs.children content (List.mem_singleton_self _)
    have hstep := (ih hcontent).inside .list (h.inner_or_begins hcontent) fun _ => rfl
    rw [levels_list_open, levels_list_open]
    simpa [Level.fill] using hstep
  | @tuple_index slots n slot i c ha hc hlen =>
    have hslots : SlotsSound slots n (.filling slot) := hs.node
    have hi := (List.getElem?_eq_some_iff.mp hc).1
    rw [levels_tuple_idle hslots ha, levels_tuple hc,
      levels_eq_nil (hslots.not_active ha (List.mem_of_getElem? hc))]
    refine ⟨?_, rfl⟩
    exact decide_eq_true ⟨hi, not_mem_filledSlots hc hlen⟩
  | @tuple_end slots n slot ha =>
    rw [levels_tuple_idle hs.node ha, levels_eq_nil rfl]
    exact ⟨rfl, rfl⟩
  | @tuple_slot slots n i c c' p hc hlen h ih =>
    have hslots : SlotsSound slots n (.filling (some i)) := hs.node
    have hsound := hs.children c (List.mem_of_getElem? hc)
    have hset : (slots.set i c')[i]? = some c' := getElem?_set_of_getElem? hc c'
    have hstep := (ih hsound).inside (.tuple slots.length (some i) (filledSlots slots n))
      (h.inner_or_begins hsound) fun _ => decide_eq_true (not_mem_filledSlots hc hlen)
    rw [levels_tuple hc, levels_tuple hset, List.length_set, filledSlots_set hc hlen]
    simp only [h.lt_length_iff hslots hc hlen hsound]
    split at hstep <;> simp_all [Level.fill]
  | @record_field name fields n slot settled declared key check i c ha hi hc hlen =>
    obtain ⟨hslots, hkeys⟩ := hs.node
    have hkey := fieldIndex?_eq_some hi
    rw [levels_record_idle hslots ha, levels_record hc,
      levels_eq_nil (hslots.not_active ha (List.mem_of_getElem? hc)), hkey]
    refine ⟨?_, rfl⟩
    exact decide_eq_true (not_mem_filledKeys hkeys (mem_fields hkey hc) hlen)
  | @record_new name fields n slot settled declared key check ha hi hcheck =>
    obtain ⟨hslots, hkeys⟩ := hs.node
    have hc : (columnsOf (fields ++ [(key, .unknown n)]))[fields.length]? = some (.unknown n) := by
      rw [columnsOf_concat, ← columnsOf_length]
      exact List.getElem?_concat_length
    rw [levels_record_idle hslots ha, levels_record hc, levels_eq_nil rfl, filledKeys_concat]
    refine ⟨?_, by simp [Level.next, Level.select, Push.selects?]⟩
    refine decide_eq_true fun hmem => fieldIndex?_eq_none.mp hi ?_
    obtain ⟨c, hmem, -⟩ := mem_filledKeys.mp hmem
    exact List.mem_map.mpr ⟨_, hmem, rfl⟩
  | @record_end name fields n slot settled declared ha =>
    rw [levels_record_idle hs.node.1 ha, levels_eq_nil rfl]
    exact ⟨rfl, rfl⟩
  | @record_slot name fields n i settled declared c c' p hc hlen h ih =>
    obtain ⟨hslots, hkeys⟩ := hs.node
    have hsound := hs.children c (List.mem_of_getElem? hc)
    have hi : i < fields.length := by simpa [columnsOf] using hslots.selected i rfl
    obtain ⟨key, hkey⟩ : ∃ key, (fields.map Prod.fst)[i]? = some key :=
      ⟨_, by rw [List.getElem?_map, List.getElem?_eq_getElem hi]; rfl⟩
    have hset : (columnsOf (setField fields i c'))[i]? = some c' := getElem?_setField hc c'
    have hstep := (ih hsound).inside (.record (some key) (filledKeys fields n))
      (h.inner_or_begins hsound) fun _ =>
        decide_eq_true (not_mem_filledKeys hkeys (mem_fields hkey hc) hlen)
    rw [levels_record hc, levels_record hset, keys_setField, hkey,
      filledKeys_setField hkeys hkey hc hlen]
    simp only [h.lt_length_iff hslots hc hlen hsound]
    split at hstep <;> simp_all [Level.fill]
  | @union_own tags index children tag c c' p k hp ht hc h ih =>
    have hunion : UnionSound tags index children none := hs.node
    have hmem := List.mem_of_getElem? hc
    have hset : (children.set tag c')[tag]? = some c' := getElem?_set_of_getElem? hc c'
    have hstep := ih (hs.children c hmem)
    rw [levels_eq_nil (hunion.not_active hmem)] at hstep
    rwa [levels_eq_nil rfl, levels_openTag hset]
  | union_new hp _ _ =>
    exact hidle rfl (.inr ⟨_, hp⟩) (by rw [levels_addChild, levels_first hp])
  | @union_open tags index children tag c c' p hc h ih =>
    have hset : (children.set tag c')[tag]? = some c' := getElem?_set_of_getElem? hc c'
    rw [levels_union hc, levels_openTag hset]
    exact ih (hs.children c (List.mem_of_getElem? hc))

end Columnar.Column
