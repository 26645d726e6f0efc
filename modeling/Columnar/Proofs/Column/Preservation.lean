import Mathlib.Data.List.Nodup
import Columnar.Proofs.Column.Taking
import Columnar.Proofs.Table

/-!
# Pushes keep columns sound

Whatever a push does to a sound column, the column after it is sound.  Three facts about
the column after carry the step from a child to its parent: how many elements it has, the
class it holds, and that it has not become a wrapper of the wrong kind.

## Main results

* `Column.Takes.length_add` — a push completes an element or leaves one open.
* `Column.Takes.class?_eq`, `Column.Takes.kind_ne` — the class and the kind that are kept.
* `Column.Sound.takes` — the column after a push is sound.
* `Column.Sound.clear` — a cleared column is sound.
-/

namespace Columnar.Column

variable {o : Options} {p : Push}

/-! ### New columns -/

/-- A column of records without any has empty columns under the declared keys. -/
theorem exists_emptyRecords (o : Options) (name : Option String) :
    ∃ fields settled declared,
      emptyRecords o name = .record name fields 0 .closed settled declared ∧
        (∀ c ∈ columnsOf fields, c = .unknown 0) ∧
        fields.map Prod.fst = ((o.declaredFields? name).getD []).eraseDups := by
  unfold emptyRecords
  split
  · next keys hkeys =>
    refine ⟨_, _, _, rfl, ?_, ?_⟩
    · intro c hc
      obtain ⟨e, he, rfl⟩ := List.mem_map.mp hc
      obtain ⟨key, -, rfl⟩ := List.mem_map.mp (mem_of_mem_tableOf he)
      rfl
    · rw [hkeys, declaredColumns, keys_tableOf]
      simp [Function.comp_def]
  · next hkeys => exact ⟨[], _, _, rfl, nofun, by rw [hkeys]; rfl⟩

theorem first_beginTuple (o : Options) (n : Nat) :
    first o (.beginTuple n) = .tuple (List.replicate n (.unknown 0)) 0 (.filling none) := rfl

theorem first_beginRecord (o : Options) (name : Option String) :
    first o (.beginRecord name) =
      match emptyRecords o name with
      | .record name fields n _ settled declared =>
        .record name fields n (.filling none) settled declared
      | c => c := rfl

/-- A new column of records holds an open record none of whose fields has an element. -/
theorem exists_first_beginRecord (o : Options) (name : Option String) :
    ∃ fields settled declared,
      first o (.beginRecord name) = .record name fields 0 (.filling none) settled declared ∧
        (∀ c ∈ columnsOf fields, c = .unknown 0) ∧
        fields.map Prod.fst = ((o.declaredFields? name).getD []).eraseDups := by
  obtain ⟨fields, settled, declared, he, hu, hkeys⟩ := exists_emptyRecords o name
  exact ⟨fields, settled, declared, by rw [first_beginRecord, he], hu, hkeys⟩

theorem class?_first {k : ElementClass} (hp : p.elementClass? = some k) :
    (first o p).class? = some k := by
  cases p with
  | beginRecord name =>
    obtain ⟨fields, settled, declared, he, -, -⟩ := exists_first_beginRecord o name
    rw [he]
    exact hp
  | beginTuple n =>
    rw [first_beginTuple, class?, List.length_replicate]
    exact hp
  | _ => exact hp

/-- A new column has one element, complete or open. -/
theorem length_first {k : ElementClass} (hp : p.elementClass? = some k) :
    (first o p).length + (first o p).isActive.toNat = 1 := by
  cases p with
  | beginRecord name =>
    obtain ⟨fields, settled, declared, he, -, -⟩ := exists_first_beginRecord o name
    rw [he]
    rfl
  | _ => first | rfl | cases hp

theorem slotsSound_unknown {slots : List Column} (h : ∀ c ∈ slots, c = .unknown 0) :
    SlotsSound slots 0 (.filling none) := by
  refine ⟨fun c hc => .inl ?_, ?_, nofun⟩
  · rw [h c hc]
    rfl
  · intro i c hc ha
    rw [h c (List.mem_of_getElem? hc)] at ha
    cases ha

theorem sound_unknown (n : Nat) : Sound (.unknown n) := ⟨trivial, List.forall_mem_nil _⟩

theorem sound_first {k : ElementClass} (hp : p.elementClass? = some k) : (first o p).Sound := by
  have hunknown : ∀ {cs : List Column}, (∀ c ∈ cs, c = .unknown 0) → ∀ c ∈ cs, c.Sound := by
    intro cs h c hc
    rw [h c hc]
    exact sound_unknown 0
  cases p with
  | string encoding data =>
    exact ⟨⟨rfl, by simp, by simp⟩, List.forall_mem_nil _⟩
  | beginList =>
    refine ⟨⟨⟨0, Nat.le_refl 0, .single, nofun⟩, nofun⟩, ?_⟩
    exact hunknown fun c hc => List.mem_singleton.mp hc
  | beginTuple n =>
    have hslots : ∀ c ∈ List.replicate n (Column.unknown 0), c = .unknown 0 :=
      fun c hc => List.eq_of_mem_replicate hc
    exact ⟨slotsSound_unknown hslots, hunknown hslots⟩
  | beginRecord name =>
    obtain ⟨fields, settled, declared, he, hu, hkeys⟩ := exists_first_beginRecord o name
    rw [he]
    refine ⟨⟨slotsSound_unknown hu, ?_⟩, hunknown hu⟩
    rw [hkeys]
    exact List.nodup_eraseDups _
  | bool | int | real | complex | time => exact ⟨trivial, List.forall_mem_nil _⟩
  | _ => cases hp

/-! ### Counting -/

theorem length_accept {k : ElementClass} {c : Column} (hc : c.Sound) (ha : c.isActive = false)
    (hp : p.elementClass? = some k) (hk : c.class? = some k) :
    (c.accept p).length + (c.accept p).isActive.toNat = c.length + 1 := by
  cases c with
  | unknown | option | union => cases hk
  | string encoding offsets data =>
    have hpos := IsOffsets.size_pos hc.node
    cases p with
    | string encoding' bytes =>
      simp only [accept, length, isActive, Array.size_push, Bool.toNat_false]
      omega
    | _ => cases hp <;> cases hk
  | _ =>
    cases p <;> first
      | (cases hp; done)
      | (cases hp; cases hk; done)
      | simp [accept, length, isActive, Filling.isOpen]

theorem length_afterNulls (n : Nat) {c : Column} (hc : c.length + c.isActive.toNat = 1) :
    (afterNulls n c).length + (afterNulls n c).isActive.toNat = n + 1 := by
  have hle := c.isActive.toNat_le
  unfold afterNulls
  split
  · next hn => rw [hc, hn]
  · simp only [length, isActive, Array.size_push, Array.size_replicate]
    omega

theorem length_addChild {tags index : Array Nat} {children : List Column} {c : Column} :
    (addChild tags index children c).length + (addChild tags index children c).isActive.toNat
      = tags.size + 1 := by
  simp only [addChild, openChild, length, isActive, Array.size_push]
  split <;> simp

/-- A push completes an element or leaves one open that was not counted before. -/
theorem Takes.length_add {c c' : Column} (hc : c.Sound) (h : Takes o c p c') :
    c'.length + c'.isActive.toNat = c.length + 1 := by
  have hle : ∀ b : Bool, b.toNat ≤ 1 := Bool.toNat_le
  cases h with
  | unknown_null | tuple_index | tuple_end | tuple_slot | record_field | record_new | record_end
  | record_slot | list_item => rfl
  | unknown_first n hp => exact length_afterNulls n (length_first hp)
  | option_null ha => simp [length, isActive, ha]
  | @option_present index content content' _ _ ha =>
    have := hle content'.isActive
    simp only [length, isActive, ha, Array.size_push, Bool.toNat_false]
    omega
  | @option_open index content content' _ ha =>
    have hopt : OptionSound index content := hc.node
    obtain ⟨before, rfl⟩ := Array.back?_eq_some_iff.mp (hopt.last ha)
    have := hle content'.isActive
    simp only [length, isActive, ha, Bool.toNat_true, Array.size_push]
    omega
  | first_null ha => simp [length, isActive, ha, allPresent]
  | own ha hp hk => exact length_accept hc ha hp hk
  | other => rw [joinedBy, length_addChild, Array.size_replicate]
  | list_end =>
    obtain ⟨total, -, hoff, -⟩ := hc.node.offsets
    have := hoff.size_pos
    simp only [length, isActive, Array.size_push, Bool.toNat_false]
    omega
  | @union_own tags index children tag c c' =>
    simp only [length, isActive, openTag, Array.size_push, Option.isSome_none, Bool.toNat_false]
    split <;> simp
  | union_new => rw [length_addChild]; rfl
  | @union_open tags index children tag c c' =>
    have hunion : UnionSound tags index children (some tag) := hc.node
    obtain ⟨before, rfl⟩ := Array.back?_eq_some_iff.mp (hunion.last tag rfl).2
    simp only [length, isActive, openTag, Option.isSome_some, Bool.toNat_true, Array.size_push]
    split <;> simp

/-! ### Classes and kinds -/

theorem class?_accept {k : ElementClass} {c : Column} (hp : p.elementClass? = some k)
    (hk : c.class? = some k) : (c.accept p).class? = some k := by
  cases c with
  | unknown | option | union => cases hk
  | _ =>
    cases p <;> first
      | (cases hp; done)
      | (cases hp; cases hk; done)
      | exact hk

/-- A column keeps its class while an element of it is open, and with every new element of
the class. -/
theorem Takes.class?_eq {c c' : Column} {k : ElementClass} (h : Takes o c p c')
    (hk : c.class? = some k) (hkeep : c.isActive = true ∨ p.elementClass? = some k) :
    c'.class? = some k := by
  cases h with
  | unknown_null | unknown_first | option_null | option_present | option_open | union_own
  | union_new | union_open => cases hk
  | first_null ha =>
    rw [ha] at hkeep
    rcases hkeep with h | h <;> cases h
  | own ha hp hk' =>
    rw [hk'] at hk
    cases hk
    exact class?_accept hp hk'
  | other ha hp hk' hne =>
    rw [ha, hp] at hkeep
    rw [hk'] at hk
    rcases hkeep with h | h
    · cases h
    · exact absurd (Option.some.inj (hk.trans h.symm)) hne
  | tuple_end => simpa [class?, fillSlots] using hk
  | tuple_slot => simpa [class?] using hk
  | list_end | list_item | tuple_index | record_field | record_new | record_end | record_slot =>
    exact hk

/-- Only a missing element can make a column optional. -/
theorem Takes.kind_ne {c c' : Column} (h : Takes o c p c') (hu : c.kind ≠ .unknown)
    (ho : c.kind ≠ .option) (hp : c.isActive = true ∨ p ≠ .null) :
    c'.kind ≠ .unknown ∧ c'.kind ≠ .option := by
  cases h with
  | unknown_null | unknown_first => exact absurd rfl hu
  | option_null | option_present | option_open => exact absurd rfl ho
  | first_null ha =>
    rw [ha] at hp
    rcases hp with h | h
    · cases h
    · exact absurd rfl h
  | own ha hp hk =>
    obtain ⟨hu', ho', -⟩ := kind_ne_of_class? (class?_accept hp hk)
    exact ⟨hu', ho'⟩
  | _ => exact ⟨nofun, nofun⟩

/-! ### Optional columns -/

theorem reduceOption_allPresent (n : Nat) :
    (allPresent n).toList.reduceOption = List.range n := by
  simp [allPresent, List.reduceOption, List.filterMap_map]

/-- An optional column whose last place is that of the newest element of its content. -/
theorem optionSound_of_last {index : Array (Option Nat)} {content : Column} {n : Nat}
    (hplaces : index.toList.reduceOption = List.range (n + 1))
    (hlast : index.back? = some (some n))
    (hlen : content.length + content.isActive.toNat = n + 1)
    (hkind : content.kind ≠ .unknown ∧ content.kind ≠ .option) : OptionSound index content where
  places := by rw [hlen, hplaces]
  last ha := by
    rw [ha, Bool.toNat_true] at hlen
    rw [hlast, Nat.add_right_cancel hlen]
  not_unknown := hkind.1
  not_option := hkind.2

/-- One more missing element. -/
theorem OptionSound.push_none {index : Array (Option Nat)} {content : Column}
    (h : OptionSound index content) (ha : content.isActive = false) :
    OptionSound (index.push none) content where
  places := by
    rw [Array.toList_push, List.reduceOption_append, h.places]
    simp
  last hact := by
    rw [ha] at hact
    cases hact
  not_unknown := h.not_unknown
  not_option := h.not_option

/-- The first missing element. -/
theorem optionSound_first_null {c : Column} (ha : c.isActive = false) (hu : c.kind ≠ .unknown)
    (ho : c.kind ≠ .option) : OptionSound ((allPresent c.length).push none) c := by
  refine OptionSound.push_none ⟨?_, ?_, hu, ho⟩ ha
  · rw [reduceOption_allPresent, ha, Bool.toNat_false, Nat.add_zero]
  · intro hact
    rw [ha] at hact
    cases hact

theorem optionSound_afterNulls {n : Nat} {c : Column}
    (hlen : c.length + c.isActive.toNat = 1)
    (hkind : c.kind ≠ .unknown ∧ c.kind ≠ .option) :
    OptionSound ((Array.replicate n none).push (some 0)) c := by
  refine optionSound_of_last ?_ (by simp) hlen hkind
  rw [Array.toList_push, List.reduceOption_append, Array.toList_replicate,
    List.reduceOption_replicate_none]
  rfl

/-- One more present element. -/
theorem OptionSound.push_some {index : Array (Option Nat)} {content content' : Column}
    (h : OptionSound index content) (ha : content.isActive = false)
    (hlen : content'.length + content'.isActive.toNat = content.length + 1)
    (hkind : content'.kind ≠ .unknown ∧ content'.kind ≠ .option) :
    OptionSound (index.push (some content.length)) content' := by
  refine optionSound_of_last ?_ (by simp) hlen hkind
  rw [Array.toList_push, List.reduceOption_append, h.places, ha, List.range_succ]
  rfl

/-- A push into the open element, which has its place already. -/
theorem OptionSound.advance {index : Array (Option Nat)} {content content' : Column}
    (h : OptionSound index content) (ha : content.isActive = true)
    (hlen : content'.length + content'.isActive.toNat = content.length + 1)
    (hkind : content'.kind ≠ .unknown ∧ content'.kind ≠ .option) :
    OptionSound index content' := by
  have hplaces := h.places
  rw [ha, Bool.toNat_true] at hplaces
  exact optionSound_of_last hplaces (h.last ha) hlen hkind

theorem sound_option {index : Array (Option Nat)} {content : Column}
    (hnode : OptionSound index content) (hc : content.Sound) :
    Sound (.option index content) := by
  refine ⟨hnode, ?_⟩
  intro d hd
  rw [List.mem_singleton.mp hd]
  exact hc

/-! ### Lists -/

theorem sound_list {offsets : Array Nat} {content : Column} {isOpen : Bool}
    (hnode : ListSound offsets content isOpen) (hc : content.Sound) :
    Sound (.list offsets content isOpen) := by
  refine ⟨hnode, ?_⟩
  intro d hd
  rw [List.mem_singleton.mp hd]
  exact hc

/-- The end of the open list. -/
theorem ListSound.close {offsets : Array Nat} {content : Column}
    (h : ListSound offsets content true) (ha : content.isActive = false) :
    ListSound (offsets.push content.length) content false := by
  obtain ⟨total, hle, hoff, -⟩ := h.offsets
  refine ⟨⟨content.length, Nat.le_refl _, hoff.push hle, fun _ => rfl⟩, ?_⟩
  intro hact
  rw [ha] at hact
  cases hact

/-- A push into the items of the open list, of which there are no fewer afterwards. -/
theorem ListSound.advance {offsets : Array Nat} {content content' : Column}
    (h : ListSound offsets content true) (hle : content.length ≤ content'.length) :
    ListSound offsets content' true := by
  obtain ⟨total, htotal, hoff, -⟩ := h.offsets
  exact ⟨⟨total, Nat.le_trans htotal hle, hoff, nofun⟩, fun _ => rfl⟩

/-! ### Slots -/

/-- If the selected slot is not open, none is. -/
theorem SlotsSound.not_active {slots : List Column} {n : Nat} {filling : Filling}
    (h : SlotsSound slots n filling) (hs : isSlotActive slots filling = false) {c : Column}
    (hc : c ∈ slots) : c.isActive = false := by
  obtain ⟨i, hi⟩ := List.mem_iff_getElem?.mp hc
  by_contra ha
  rw [Bool.not_eq_false] at ha
  have hsel := (h.active i c hi ha).1
  simp only [isSlotActive, hsel, isActiveAt_eq, hi, Option.map_some, Option.getD_some, ha,
    reduceCtorEq] at hs

/-- The choice of a slot while none is open. -/
theorem SlotsSound.select {slots : List Column} {n : Nat} {slot : Option Nat} {i : Nat}
    (h : SlotsSound slots n (.filling slot)) (hs : isSlotActive slots (.filling slot) = false)
    (hi : i < slots.length) : SlotsSound slots n (.filling (some i)) := by
  refine ⟨?_, ?_, ?_⟩
  · intro c hc
    exact h.length c hc
  · intro j c hj ha
    rw [h.not_active hs (List.mem_of_getElem? hj)] at ha
    cases ha
  · intro j hj
    cases hj
    exact hi

/-- The start of an element, before any slot is selected. -/
theorem SlotsSound.start {slots : List Column} {n : Nat} {filling : Filling}
    (h : SlotsSound slots n filling) (hf : filling.isOpen = false) :
    SlotsSound slots n (.filling none) := by
  cases filling with
  | filling slot => cases hf
  | closed =>
    refine ⟨?_, ?_, nofun⟩
    · intro c hc
      rcases h.length c hc with hlen | ⟨hopen, -⟩
      · exact .inl hlen
      · cases hopen
    · intro i c hi ha
      cases (h.active i c hi ha).1

/-- A push into the selected slot. -/
theorem SlotsSound.set {slots : List Column} {n i : Nat} {c c' : Column}
    (h : SlotsSound slots n (.filling (some i))) (hle : c.length ≤ n) (hc : slots[i]? = some c)
    (hlen : c'.length + c'.isActive.toNat = c.length + 1) :
    SlotsSound (slots.set i c') n (.filling (some i)) := by
  have hcn : c.length = n := by
    rcases h.length c (List.mem_of_getElem? hc) with h | ⟨-, h⟩ <;> omega
  have hi : i < slots.length := h.selected i rfl
  refine ⟨?_, ?_, ?_⟩
  · intro d hd
    rcases List.mem_or_eq_of_mem_set hd with hd | rfl
    · exact h.length d hd
    · cases ha : d.isActive <;> simp [ha] at hlen
      · exact .inr ⟨rfl, by omega⟩
      · exact .inl (by omega)
  · intro j d hj ha
    rw [List.getElem?_set] at hj
    split at hj
    · next hij =>
      cases hj
      rw [ha, Bool.toNat_true] at hlen
      exact ⟨by rw [hij]; rfl, by omega⟩
    · exact h.active j d hj ha
  · intro j hj
    rw [List.length_set]
    exact h.selected j hj

/-- The choice of a slot that was not there, whose elements are missing in all rows. -/
theorem SlotsSound.select_new {slots : List Column} {n : Nat} {slot : Option Nat}
    (h : SlotsSound slots n (.filling slot)) (hs : isSlotActive slots (.filling slot) = false) :
    SlotsSound (slots ++ [.unknown n]) n (.filling (some slots.length)) := by
  have hmem : ∀ c ∈ slots ++ [Column.unknown n], c ∈ slots ∨ c = .unknown n := by simp
  refine ⟨?_, ?_, ?_⟩
  · intro c hc
    rcases hmem c hc with hc | rfl
    · exact h.length c hc
    · exact .inl rfl
  · intro i c hi ha
    rcases hmem c (List.mem_of_getElem? hi) with hc | rfl
    · rw [h.not_active hs hc] at ha
      cases ha
    · cases ha
  · intro i hi
    cases hi
    simp

theorem fillSlot_eq (row : Nat) (c : Column) :
    fillSlot row c = c ∨ fillSlot row c = c.appendNull ∧ c.length = row := by
  unfold fillSlot
  split
  · next h => exact .inr ⟨rfl, h⟩
  · exact .inl rfl

theorem length_appendNull {c : Column} (ha : c.isActive = false) :
    c.appendNull.length = c.length + 1 := by
  cases c with
  | unknown => rfl
  | option index content =>
    rw [isActive] at ha
    simp [appendNull, length, ha]
  | _ => simp_all [appendNull, length, isActive, allPresent]

theorem isActive_appendNull (c : Column) : c.appendNull.isActive = c.isActive := by
  cases c <;> rfl

theorem sound_appendNull {c : Column} (hc : c.Sound) (ha : c.isActive = false) :
    c.appendNull.Sound := by
  rcases kind_cases c with ⟨n, rfl⟩ | ⟨index, content, rfl⟩ | ⟨hu, ho⟩
  · exact sound_unknown _
  · exact sound_option (OptionSound.push_none hc.node ha)
      (hc.children content (List.mem_singleton_self _))
  · rw [appendNull_of_kind hu ho]
    exact sound_option (optionSound_first_null ha hu ho) hc

/-- The end of an open tuple or record: every slot has an element for this row. -/
theorem SlotsSound.fill {slots : List Column} {n : Nat} {slot : Option Nat}
    (h : SlotsSound slots n (.filling slot)) (hs : isSlotActive slots (.filling slot) = false) :
    SlotsSound (fillSlots n slots) (n + 1) .closed := by
  have hfill : ∀ c ∈ slots, (fillSlot n c).length = n + 1 ∧ (fillSlot n c).isActive = false := by
    intro c hc
    have ha := h.not_active hs hc
    rcases fillSlot_eq n c with he | ⟨he, hlen⟩
    · rcases h.length c hc with hlen | ⟨-, hlen⟩
      · rw [fillSlot, if_pos hlen, length_appendNull ha, isActive_appendNull, hlen]
        exact ⟨rfl, ha⟩
      · rw [he]
        exact ⟨hlen, ha⟩
    · rw [he, length_appendNull ha, isActive_appendNull, hlen]
      exact ⟨rfl, ha⟩
  refine ⟨fun d hd => .inl ?_, ?_, nofun⟩
  · obtain ⟨c, hc, rfl⟩ := List.mem_map.mp hd
    exact (hfill c hc).1
  · intro i d hi ha
    obtain ⟨c, hc, rfl⟩ := List.mem_map.mp (List.mem_of_getElem? hi)
    rw [(hfill c hc).2] at ha
    cases ha

theorem sound_fillSlot {n : Nat} {c : Column} (hc : c.Sound) (ha : c.isActive = false) :
    (fillSlot n c).Sound := by
  rcases fillSlot_eq n c with he | ⟨he, -⟩
  · rwa [he]
  · rw [he]
    exact sound_appendNull hc ha

/-! ### Unions -/

theorem placesOf_push {tags index : Array Nat} (h : tags.size = index.size) (t i tag : Nat) :
    placesOf (tags.push t) (index.push i) tag
      = placesOf tags index tag ++ if t = tag then [i] else [] := by
  have hlen : tags.toList.length = index.toList.length := by simpa using h
  rw [placesOf, Array.toList_push, Array.toList_push, List.zip_append hlen, List.filter_append,
    List.map_append]
  by_cases ht : t = tag <;> simp [placesOf, ht]

/-- The places of the only child of a union, of which no tag is given but zero. -/
theorem placesOf_range (n tag : Nat) :
    placesOf (Array.replicate n 0) (Array.range n) tag = if tag = 0 then List.range n else [] := by
  induction n with
  | zero => simp [placesOf]
  | succ n ih =>
    rw [Array.replicate_succ, Array.range_succ, Array.append_singleton, placesOf_push (by simp), ih]
    by_cases ht : tag = 0
    · simp [ht, List.range_succ]
    · simp [ht, Ne.symm ht]

/-- No child of a union without an open element is open. -/
theorem UnionSound.not_active {tags index : Array Nat} {children : List Column}
    (h : UnionSound tags index children none) {c : Column} (hc : c ∈ children) :
    c.isActive = false := by
  obtain ⟨i, hi⟩ := List.mem_iff_getElem?.mp hc
  by_contra ha
  rw [Bool.not_eq_false] at ha
  cases (h.active_iff i c hi).mp ha

theorem openTag_eq_some {tag t : Nat} {c : Column} :
    openTag tag c = some t ↔ c.isActive = true ∧ tag = t := by
  unfold openTag
  split <;> simp_all

theorem placesOf_eq_nil {tags index : Array Nat} {tag : Nat} (h : ∀ t ∈ tags.toList, t < tag) :
    placesOf tags index tag = [] := by
  rw [placesOf, List.map_eq_nil_iff, List.filter_eq_nil_iff]
  rintro ⟨t, i⟩ hmem heq
  have hlt := h t (List.of_mem_zip hmem).1
  rw [beq_iff_eq] at heq
  omega

/-- A child may be replaced by one of its class. -/
theorem map_class?_set {children : List Column} {tag : Nat} {c c' : Column}
    (hc : children[tag]? = some c) (hclass : c'.class? = c.class?) :
    (children.set tag c').map class? = children.map class? := by
  rw [List.map_set, hclass]
  apply List.ext_getElem?
  intro i
  rw [List.getElem?_set]
  split
  · next hi =>
    obtain ⟨htag, -⟩ := List.getElem?_eq_some_iff.mp hc
    rw [← hi, List.getElem?_map, hc, if_pos (by simpa using htag)]
    rfl
  · rfl

/-- Two children of one class are at one place. -/
theorem UnionSound.place_eq {tags index : Array Nat} {children : List Column}
    {current : Option Nat} (h : UnionSound tags index children current) {i j : Nat}
    {c d : Column} (hi : children[i]? = some c) (hj : children[j]? = some d)
    (hk : c.class? = d.class?) : i = j := by
  obtain ⟨hilt, rfl⟩ := List.getElem?_eq_some_iff.mp hi
  obtain ⟨hjlt, rfl⟩ := List.getElem?_eq_some_iff.mp hj
  rw [← List.length_map class?] at hilt hjlt
  have hclasses : (children.map class?)[i] = (children.map class?)[j] := by
    rw [List.getElem_map, List.getElem_map, hk]
  exact h.distinct.getElem_inj_iff.mp hclasses

/-- The children after one of them is replaced are the new one and those of other classes. -/
theorem UnionSound.mem_set {tags index : Array Nat} {children : List Column}
    {current : Option Nat} (h : UnionSound tags index children current) {tag : Nat}
    {c c' d : Column} (hc : children[tag]? = some c) (hd : d ∈ children.set tag c') :
    d = c' ∨ d ∈ children ∧ c.class? ≠ d.class? := by
  obtain ⟨i, hi⟩ := List.mem_iff_getElem?.mp hd
  rw [List.getElem?_set] at hi
  split at hi
  · next heq =>
    rw [if_pos (heq ▸ (List.getElem?_eq_some_iff.mp hc).1)] at hi
    exact .inl (Option.some.inj hi).symm
  · next hne => exact .inr ⟨List.mem_of_getElem? hi, fun hk => hne (h.place_eq hc hi hk)⟩

/-- The child of one tag takes a push, and the tags and places count its elements again. -/
theorem UnionSound.advance {tags index tags' index' : Array Nat} {children : List Column}
    {current : Option Nat} {tag : Nat} {c c' : Column}
    (h : UnionSound tags index children current) (hcurrent : ∀ t, current = some t → t = tag)
    (hc : children[tag]? = some c) (hclass : c'.class? = c.class?)
    (hsize : tags'.size = index'.size) (htags : ∀ t ∈ tags'.toList, t < children.length)
    (hlast : tags'.back? = some tag)
    (hplaces : placesOf tags' index' tag = List.range (c'.length + c'.isActive.toNat))
    (hother : ∀ t, t ≠ tag → placesOf tags' index' t = placesOf tags index t) :
    UnionSound tags' index' (children.set tag c') (openTag tag c') := by
  obtain ⟨htag, hget⟩ := List.getElem?_eq_some_iff.mp hc
  have hmap := map_class?_set hc hclass
  -- a child is the one that took the push, or it is as before and not open
  have hchild : ∀ t d, (children.set tag c')[t]? = some d →
      t = tag ∧ d = c' ∨ t ≠ tag ∧ children[t]? = some d := by
    intro t d hd
    rw [List.getElem?_set] at hd
    split at hd
    · next ht => exact .inl ⟨ht.symm, (Option.some.inj hd).symm⟩
    · next ht => exact .inr ⟨Ne.symm ht, hd⟩
  refine
    { size_eq := hsize
      two_le := by rw [List.length_set]; exact h.two_le
      le_max := by rw [List.length_set]; exact h.le_max
      classes := fun d hd => ?_
      distinct := by rw [hmap]; exact h.distinct
      tags_lt := by rw [List.length_set]; exact htags
      places := fun t d hd => ?_
      active_iff := fun t d hd => ?_
      last := fun t ht => ?_ }
  · rcases List.mem_or_eq_of_mem_set hd with hd | rfl
    · exact h.classes d hd
    · rw [hclass]
      exact h.classes c (List.mem_of_getElem? hc)
  · rcases hchild t d hd with ⟨rfl, rfl⟩ | ⟨ht, hd⟩
    · exact hplaces
    · rw [hother t ht, h.places t d hd]
  · rw [openTag_eq_some]
    rcases hchild t d hd with ⟨rfl, rfl⟩ | ⟨ht, hd⟩
    · exact ⟨fun ha => ⟨ha, rfl⟩, fun ha => ha.1⟩
    · rw [h.active_iff t d hd]
      exact ⟨fun hcur => absurd (hcurrent t hcur) ht, fun ha => absurd ha.2.symm ht⟩
  · rw [openTag_eq_some] at ht
    rw [List.length_set, ← ht.2]
    exact ⟨htag, hlast⟩

/-- One more element of a class that a child has. -/
theorem UnionSound.push {tags index : Array Nat} {children : List Column} {tag : Nat}
    {c c' : Column} (h : UnionSound tags index children none) (hc : children[tag]? = some c)
    (hclass : c'.class? = c.class?) (hlen : c'.length + c'.isActive.toNat = c.length + 1) :
    UnionSound (tags.push tag) (index.push c.length) (children.set tag c') (openTag tag c') := by
  refine h.advance (by simp) hc hclass (by simp [h.size_eq]) ?_ (by simp) ?_ ?_
  · intro t ht
    rw [Array.toList_push, List.mem_append, List.mem_singleton] at ht
    rcases ht with ht | rfl
    · exact h.tags_lt t ht
    · exact (List.getElem?_eq_some_iff.mp hc).1
  · rw [placesOf_push h.size_eq, if_pos rfl, h.places tag c hc,
      h.not_active (List.mem_of_getElem? hc), hlen, List.range_succ]
    rfl
  · intro t hne
    rw [placesOf_push h.size_eq, if_neg (Ne.symm hne), List.append_nil]

/-- A push into the open child, whose element has its tag and its place already. -/
theorem UnionSound.advance_open {tags index : Array Nat} {children : List Column} {tag : Nat}
    {c c' : Column} (h : UnionSound tags index children (some tag))
    (hc : children[tag]? = some c) (hclass : c'.class? = c.class?)
    (hlen : c'.length + c'.isActive.toNat = c.length + 1) :
    UnionSound tags index (children.set tag c') (openTag tag c') := by
  have ha := (h.active_iff tag c hc).mpr rfl
  refine h.advance (fun t ht => (Option.some.inj ht).symm) hc hclass h.size_eq h.tags_lt
    (h.last tag rfl).2 ?_ fun t _ => rfl
  rw [h.places tag c hc, ha, hlen]
  rfl

/-- The first element of a class that no child has. -/
theorem unionSound_addChild {tags index : Array Nat} {children : List Column} {c : Column}
    {k : ElementClass} (hsize : tags.size = index.size) (hpos : 0 < children.length)
    (hlt : children.length < maxUnionKinds) (hclasses : ∀ d ∈ children, d.class?.isSome)
    (hdistinct : (children.map class?).Nodup) (htags : ∀ tag ∈ tags.toList, tag < children.length)
    (hplaces : ∀ tag d, children[tag]? = some d → placesOf tags index tag = List.range d.length)
    (hactive : ∀ d ∈ children, d.isActive = false) (hk : c.class? = some k)
    (hnew : ∀ d ∈ children, d.class? ≠ some k)
    (hlen : c.length + c.isActive.toNat = 1) :
    NodeSound (addChild tags index children c) := by
  have hchild : ∀ t d, (children ++ [c])[t]? = some d →
      t = children.length ∧ d = c ∨ t < children.length ∧ children[t]? = some d := by
    intro t d hd
    rw [List.getElem?_append] at hd
    split at hd
    · next ht => exact .inr ⟨ht, hd⟩
    · next ht =>
      obtain ⟨h0, heq⟩ := List.getElem?_eq_some_iff.mp hd
      rw [List.length_singleton] at h0
      refine .inl ⟨by omega, ?_⟩
      simpa using heq.symm
  refine
    { size_eq := by rw [Array.size_push, Array.size_push, hsize]
      two_le := by rw [List.length_append, List.length_singleton]; omega
      le_max := by rw [List.length_append, List.length_singleton]; exact hlt
      classes := fun d hd => ?_
      distinct := ?_
      tags_lt := fun tag ht => ?_
      places := fun t d hd => ?_
      active_iff := fun t d hd => ?_
      last := fun t ht => ?_ }
  · rcases List.mem_append.mp hd with hd | hd
    · exact hclasses d hd
    · rw [List.mem_singleton.mp hd, hk]
      rfl
  · rw [List.map_append, List.map_singleton, hk, ← List.concat_eq_append, List.nodup_concat]
    refine ⟨?_, hdistinct⟩
    intro hmem
    obtain ⟨d, hd, hdk⟩ := List.mem_map.mp hmem
    exact hnew d hd hdk
  · rw [Array.toList_push, List.mem_append, List.mem_singleton] at ht
    rw [List.length_append, List.length_singleton]
    rcases ht with ht | rfl
    · exact Nat.lt_succ_of_lt (htags tag ht)
    · exact Nat.lt_succ_self _
  · rw [placesOf_push hsize]
    rcases hchild t d hd with ⟨rfl, rfl⟩ | ⟨ht, hd⟩
    · rw [placesOf_eq_nil htags, if_pos rfl, hlen]
      rfl
    · rw [if_neg (by omega), List.append_nil, hactive d (List.mem_of_getElem? hd)]
      exact hplaces t d hd
  · change _ ↔ openTag children.length c = some t
    rw [openTag_eq_some]
    rcases hchild t d hd with ⟨rfl, rfl⟩ | ⟨ht, hd⟩
    · exact ⟨fun ha => ⟨ha, rfl⟩, fun ha => ha.1⟩
    · rw [hactive d (List.mem_of_getElem? hd)]
      exact ⟨nofun, fun ha => absurd ha.2 (by omega)⟩
  · rw [show openChild children.length c = openTag children.length c from rfl,
      openTag_eq_some] at ht
    rw [List.length_append, List.length_singleton, ← ht.2]
    exact ⟨Nat.lt_succ_self _, by simp⟩

/-! ### Every rule -/

theorem sound_accept {k : ElementClass} {c : Column} (hc : c.Sound) (ha : c.isActive = false)
    (hp : p.elementClass? = some k) (hk : c.class? = some k) : (c.accept p).Sound := by
  cases c with
  | unknown | option | union => cases hk
  | string encoding offsets data =>
    cases p with
    | string encoding' bytes =>
      have hoff : IsOffsets offsets data.size := hc.node
      have hle : data.size ≤ (data ++ bytes).size := by
        rw [← Array.length_toList, ← Array.length_toList, Array.toList_appendList]
        simp
      exact ⟨hoff.push hle, List.forall_mem_nil _⟩
    | _ => cases hp <;> cases hk
  | list offsets content isOpen =>
    cases p with
    | beginList =>
      obtain ⟨⟨total, hle, hoff, -⟩, -⟩ := hc.node
      exact sound_list ⟨⟨total, hle, hoff, nofun⟩, fun _ => rfl⟩
        (hc.children content (List.mem_singleton_self _))
    | _ => cases hp <;> cases hk
  | tuple slots n filling =>
    cases p with
    | beginTuple arity => exact ⟨SlotsSound.start hc.node ha, hc.children⟩
    | _ => cases hp <;> cases hk
  | record name fields n filling settled declared =>
    cases p with
    | beginRecord other =>
      obtain ⟨hslots, hkeys⟩ := hc.node
      exact ⟨⟨hslots.start ha, hkeys⟩, hc.children⟩
    | _ => cases hp <;> cases hk
  | _ =>
    cases p <;> first
      | (cases hp; done)
      | (cases hp; cases hk; done)
      | exact ⟨trivial, List.forall_mem_nil _⟩

theorem sound_afterNulls (n : Nat) {k : ElementClass} (hp : p.elementClass? = some k) :
    (afterNulls n (first o p)).Sound := by
  obtain ⟨hu, ho, -⟩ := kind_ne_of_class? (class?_first (o := o) hp)
  unfold afterNulls
  split
  · exact sound_first hp
  · exact sound_option (optionSound_afterNulls (length_first hp) ⟨hu, ho⟩) (sound_first hp)

theorem sound_addChild {tags index : Array Nat} {children : List Column} {k : ElementClass}
    (hp : p.elementClass? = some k) (hnode : NodeSound (addChild tags index children (first o p)))
    (hc : ∀ d ∈ children, d.Sound) : (addChild tags index children (first o p)).Sound :=
  ⟨hnode, forall_mem_concat hc (sound_first hp)⟩

theorem sound_joinedBy {c : Column} {k k' : ElementClass} (hc : c.Sound)
    (ha : c.isActive = false) (hp : p.elementClass? = some k) (hk : c.class? = some k')
    (hne : k' ≠ k) : (c.joinedBy (first o p)).Sound := by
  have hall : ∀ {P : Column → Prop}, P c → ∀ d ∈ [c], P d := by
    intro P h d hd
    rwa [List.mem_singleton.mp hd]
  refine sound_addChild hp (unionSound_addChild ?_ Nat.zero_lt_one ?_ ?_ ?_ ?_ ?_ ?_
    (class?_first hp) ?_ (length_first hp)) (hall hc)
  · rw [Array.size_replicate, Array.size_range]
  · change 1 < maxUnionKinds
    decide
  · exact hall (by rw [hk]; rfl)
  · exact List.nodup_singleton _
  · intro tag ht
    rw [Array.toList_replicate] at ht
    rw [List.eq_of_mem_replicate ht]
    exact Nat.zero_lt_one
  · intro tag d hd
    obtain ⟨ht, rfl⟩ := List.getElem?_eq_some_iff.mp hd
    rw [List.length_singleton, Nat.lt_one_iff] at ht
    subst ht
    exact placesOf_range _ _
  · exact hall ha
  · apply hall
    rw [hk]
    exact fun h => hne (Option.some.inj h)

theorem columnsOf_fillFields (row : Nat) (fields : List (String × Column)) :
    columnsOf (fillFields row fields) = fillSlots row (columnsOf fields) := by
  simp [columnsOf, fillFields, fillSlots, Function.comp_def]

theorem keys_fillFields (row : Nat) (fields : List (String × Column)) :
    (fillFields row fields).map Prod.fst = fields.map Prod.fst := by
  simp [fillFields, Function.comp_def]

theorem columnsOf_concat (fields : List (String × Column)) (key : String) (c : Column) :
    columnsOf (fields ++ [(key, c)]) = columnsOf fields ++ [c] := by
  rw [columnsOf, List.map_append]
  rfl

theorem columnsOf_length (fields : List (String × Column)) :
    (columnsOf fields).length = fields.length := by
  rw [columnsOf, List.length_map]

/-- The column after a push into a sound column is sound. -/
theorem Sound.takes {c c' : Column} (hc : c.Sound) (h : Takes o c p c') : c'.Sound := by
  -- The induction is on the rules.  Below the node, the child that takes the push is sound by
  -- induction, and by `Takes.length_add` it counts one element more, the open one included.
  induction h with
  | unknown_null n => exact sound_unknown _
  | unknown_first n hp => exact sound_afterNulls n hp
  | @option_null index content ha =>
    exact sound_option (OptionSound.push_none hc.node ha)
      (hc.children content (List.mem_singleton_self _))
  | @option_present index content content' p k ha hp h ih =>
    have hnode : OptionSound index content := hc.node
    have hcontent := hc.children content (List.mem_singleton_self _)
    have hnull : p ≠ .null := by
      rintro rfl
      cases hp
    exact sound_option (hnode.push_some ha (h.length_add hcontent)
      (h.kind_ne hnode.not_unknown hnode.not_option (.inr hnull))) (ih hcontent)
  | @option_open index content content' p ha h ih =>
    have hnode : OptionSound index content := hc.node
    have hcontent := hc.children content (List.mem_singleton_self _)
    exact sound_option (hnode.advance ha (h.length_add hcontent)
      (h.kind_ne hnode.not_unknown hnode.not_option (.inl ha))) (ih hcontent)
  | first_null ha hu ho => exact sound_option (optionSound_first_null ha hu ho) hc
  | own ha hp hk => exact sound_accept hc ha hp hk
  | other ha hp hk hne => exact sound_joinedBy hc ha hp hk hne
  | @list_end offsets content ha =>
    exact sound_list (ListSound.close hc.node ha) (hc.children content (List.mem_singleton_self _))
  | @list_item offsets content content' p h ih =>
    have hcontent := hc.children content (List.mem_singleton_self _)
    have hlen := h.length_add hcontent
    have hle := content'.isActive.toNat_le
    exact sound_list (ListSound.advance hc.node (by omega)) (ih hcontent)
  | tuple_index hs hi hlen =>
    exact ⟨SlotsSound.select hc.node hs (List.getElem?_eq_some_iff.mp hi).1, hc.children⟩
  | @tuple_end slots n slot hs =>
    have hnode : SlotsSound slots n (.filling slot) := hc.node
    refine ⟨hnode.fill hs, ?_⟩
    intro d hd
    obtain ⟨c, hmem, rfl⟩ := List.mem_map.mp hd
    exact sound_fillSlot (hc.children c hmem) (hnode.not_active hs hmem)
  | @tuple_slot slots n i c c' p hi hlen h ih =>
    have hmem := List.mem_of_getElem? hi
    exact ⟨SlotsSound.set hc.node hlen hi (h.length_add (hc.children c hmem)),
      forall_mem_set hc.children (ih (hc.children c hmem))⟩
  | record_field hs _ hi hlen =>
    obtain ⟨hslots, hkeys⟩ := hc.node
    exact ⟨⟨hslots.select hs (List.getElem?_eq_some_iff.mp hi).1, hkeys⟩, hc.children⟩
  | @record_new name fields n slot settled declared key check hs hi hcheck =>
    obtain ⟨hslots, hkeys⟩ := hc.node
    have hnew := hslots.select_new hs
    rw [columnsOf_length] at hnew
    refine ⟨⟨by rwa [columnsOf_concat], nodup_keys_concat hkeys (fieldIndex?_eq_none.mp hi) _⟩, ?_⟩
    rw [Column.children, columnsOf_concat]
    exact forall_mem_concat hc.children (sound_unknown n)
  | @record_end name fields n slot settled declared hs =>
    obtain ⟨hslots, hkeys⟩ := hc.node
    refine ⟨⟨?_, by rwa [keys_fillFields]⟩, ?_⟩
    · rw [columnsOf_fillFields]
      exact hslots.fill hs
    · intro d hd
      rw [Column.children, columnsOf_fillFields] at hd
      obtain ⟨c, hmem, rfl⟩ := List.mem_map.mp hd
      exact sound_fillSlot (hc.children c hmem) (hslots.not_active hs hmem)
  | @record_slot name fields n i settled declared c c' p hi hlen h ih =>
    obtain ⟨hslots, hkeys⟩ := hc.node
    have hmem := List.mem_of_getElem? hi
    refine ⟨⟨?_, by rwa [keys_setField]⟩, ?_⟩
    · rw [columnsOf_setField]
      exact hslots.set hlen hi (h.length_add (hc.children c hmem))
    · rw [Column.children, columnsOf_setField]
      exact forall_mem_set hc.children (ih (hc.children c hmem))
  | @union_own tags index children tag c c' p k hp ht hi h ih =>
    have hnode : UnionSound tags index children none := hc.node
    have hmem := List.mem_of_getElem? hi
    have hlen := h.length_add (hc.children c hmem)
    have hk : c.class? = some k := by
      obtain ⟨hlt, hadmits, -⟩ := List.findIdx?_eq_some_iff_getElem.mp ht
      rw [← (List.getElem?_eq_some_iff.mp hi).2]
      exact admits_iff.mp hadmits
    exact ⟨hnode.push hi (by rw [hk, h.class?_eq hk (.inr hp)]) hlen,
      forall_mem_set hc.children (ih (hc.children c hmem))⟩
  | @union_new tags index children p k hp ht hlt =>
    -- no child is of the class of the new one, or the push would have gone there
    have hnode : UnionSound tags index children none := hc.node
    refine sound_addChild hp (unionSound_addChild hnode.size_eq (Nat.lt_of_lt_of_le Nat.zero_lt_two
      hnode.two_le) hlt hnode.classes hnode.distinct hnode.tags_lt ?_ (fun d => hnode.not_active)
      (class?_first hp) ?_ (length_first hp)) hc.children
    · intro tag d hd
      rw [hnode.places tag d hd, hnode.not_active (List.mem_of_getElem? hd)]
      rfl
    · intro d hd hk
      have hfalse := List.findIdx?_eq_none_iff.mp ht d hd
      rw [admits_iff.mpr hk] at hfalse
      cases hfalse
  | @union_open tags index children tag c c' p hi h ih =>
    have hnode : UnionSound tags index children (some tag) := hc.node
    have hmem := List.mem_of_getElem? hi
    have hlen := h.length_add (hc.children c hmem)
    have ha := (hnode.active_iff tag c hi).mpr rfl
    obtain ⟨k, hk⟩ := Option.isSome_iff_exists.mp (hnode.classes c hmem)
    exact ⟨hnode.advance_open hi (by rw [hk, h.class?_eq hk (.inl ha)]) hlen,
      forall_mem_set hc.children (ih (hc.children c hmem))⟩

/-! ### Clearing -/

theorem clearAll_eq (cs : List Column) : clearAll cs = cs.map clear := by
  induction cs with
  | nil => rfl
  | cons c cs ih => rw [clearAll, ih, List.map_cons]

theorem clearFields_eq (fields : List (String × Column)) :
    clearFields fields = fields.map fun f => (f.1, f.2.clear) := by
  induction fields with
  | nil => rfl
  | cons f rest ih =>
    obtain ⟨key, c⟩ := f
    rw [clearFields, ih, List.map_cons]

theorem columnsOf_clearFields (fields : List (String × Column)) :
    columnsOf (clearFields fields) = (columnsOf fields).map clear := by
  simp [clearFields_eq, columnsOf, Function.comp_def]

theorem keys_clearFields (fields : List (String × Column)) :
    (clearFields fields).map Prod.fst = fields.map Prod.fst := by
  simp [clearFields_eq, Function.comp_def]

@[simp] theorem kind_clear (c : Column) : c.clear.kind = c.kind := by
  cases c with
  | time kind unit counts => cases kind <;> simp only [clear, kind]
  | _ => simp only [clear, kind]

@[simp] theorem class?_clear (c : Column) : c.clear.class? = c.class? := by
  cases c <;> simp [clear, class?, clearAll_eq]

/-- A cleared column has no element, neither a complete nor an open one. -/
theorem empty_clear (c : Column) : c.clear.length = 0 ∧ c.clear.isActive = false := by
  induction c using Column.induct with
  | node c ih =>
    cases c with
    | option index content =>
      have hcontent := (ih content (List.mem_singleton_self _)).2
      simp [clear, length, isActive, hcontent]
    | _ => simp [clear, length, isActive, Filling.isOpen]

theorem slotsSound_clear (slots : List Column) : SlotsSound (slots.map clear) 0 .closed := by
  refine ⟨fun c hc => .inl ?_, ?_, nofun⟩
  · obtain ⟨d, -, rfl⟩ := List.mem_map.mp hc
    exact (empty_clear d).1
  · intro i c hi ha
    obtain ⟨d, -, rfl⟩ := List.mem_map.mp (List.mem_of_getElem? hi)
    rw [(empty_clear d).2] at ha
    cases ha

theorem UnionSound.clear {tags index : Array Nat} {children : List Column} {current : Option Nat}
    (h : UnionSound tags index children current) :
    UnionSound #[] #[] (children.map Column.clear) none where
  size_eq := rfl
  two_le := by rw [List.length_map]; exact h.two_le
  le_max := by rw [List.length_map]; exact h.le_max
  classes c hc := by
    obtain ⟨d, hd, rfl⟩ := List.mem_map.mp hc
    rw [class?_clear]
    exact h.classes d hd
  distinct := by
    rw [List.map_map]
    simpa [Function.comp_def] using h.distinct
  tags_lt := nofun
  places tag c hc := by
    rw [List.getElem?_map, Option.map_eq_some_iff] at hc
    obtain ⟨d, -, rfl⟩ := hc
    rw [(empty_clear d).1, (empty_clear d).2]
    rfl
  active_iff tag c hc := by
    rw [List.getElem?_map, Option.map_eq_some_iff] at hc
    obtain ⟨d, -, rfl⟩ := hc
    rw [(empty_clear d).2]
    exact ⟨nofun, nofun⟩
  last := nofun

/-- A cleared column is sound if it was sound before. -/
theorem Sound.clear {c : Column} (hc : c.Sound) : c.clear.Sound := by
  induction c using Column.induct with
  | node c ih =>
    have hbelow : ∀ d ∈ c.children, d.clear.Sound := fun d hd => ih d hd (hc.children d hd)
    have hall : ∀ {cs : List Column}, (∀ d ∈ cs, d.clear.Sound) →
        ∀ d ∈ cs.map Column.clear, d.Sound := by
      intro cs h d hd
      obtain ⟨e, he, rfl⟩ := List.mem_map.mp hd
      exact h e he
    have hnode := hc.node
    cases c with
    | option index content =>
      obtain ⟨hlen, ha⟩ := empty_clear content
      obtain ⟨-, -, hu, ho⟩ := hnode
      refine sound_option ⟨?_, ?_, ?_, ?_⟩ (hbelow content (List.mem_singleton_self _))
      · rw [hlen, ha]
        rfl
      · intro hact
        rw [ha] at hact
        cases hact
      · rwa [kind_clear]
      · rwa [kind_clear]
    | list offsets content isOpen =>
      obtain ⟨hlen, ha⟩ := empty_clear content
      refine sound_list ⟨⟨0, Nat.zero_le _, .single, fun _ => hlen.symm⟩, ?_⟩
        (hbelow content (List.mem_singleton_self _))
      intro hact
      rw [ha] at hact
      cases hact
    | tuple slots n filling =>
      rw [Column.clear, clearAll_eq]
      exact ⟨slotsSound_clear slots, hall hbelow⟩
    | record name fields n filling settled declared =>
      obtain ⟨-, hkeys⟩ := hnode
      rw [Column.clear]
      refine ⟨⟨?_, by rwa [keys_clearFields]⟩, ?_⟩
      · rw [columnsOf_clearFields]
        exact slotsSound_clear _
      · rw [Column.children, columnsOf_clearFields]
        exact hall hbelow
    | union tags index children current =>
      rw [Column.clear, clearAll_eq]
      exact ⟨UnionSound.clear hnode, hall hbelow⟩
    | string encoding offsets data =>
      rw [Column.clear]
      exact ⟨.single, List.forall_mem_nil _⟩
    | _ =>
      rw [Column.clear]
      exact ⟨trivial, List.forall_mem_nil _⟩

end Columnar.Column
