import Columnar.Proofs.Column.Begun

/-!
# What rows hold after a push

An open tuple or record gives every slot the value it is filled with, and a missing one
where its row ends without a value.  A field that comes up late is missing in every row
before it.

## Main results

* `Column.fits_tuple_index`, `Column.fits_tuple_slot`, `Column.fits_tuple_end` — tuples.
* `Column.fits_record_field`, `Column.fits_record_new`, `Column.fits_record_slot`,
  `Column.fits_record_end` — records.
-/

namespace Columnar.Column

variable {o : Options} {fresh : Prop} {c : Column} {p : Push} {k : ElementClass} {vs : List Value}
  {stack : List Unfinished}

/-! ### Slots -/

theorem filterMap_eq_map_getD {f : Value → Option Value} (h : ∀ v ∈ vs, (f v).isSome = true) :
    vs.filterMap f = vs.map fun v => (f v).getD .null := by
  induction vs with
  | nil => rfl
  | cons v vs ih =>
    obtain ⟨w, hw⟩ := Option.isSome_iff_exists.mp (h v List.mem_cons_self)
    rw [List.filterMap_cons_some hw, ih fun u hu => h u (List.mem_cons_of_mem _ hu),
      List.map_cons, hw, Option.getD_some]

/-- An element has a value in every slot. -/
theorem filterMap_slot {n : Nat} (h : ∀ v ∈ vs, v.class? = some (.tuple n)) (i : Nat) :
    vs.filterMap (Value.slot? i) = vs.map fun v => (v.slot? i).getD .null := by
  apply filterMap_eq_map_getD
  intro v hv
  have hk := h v hv
  cases v with
  | tuple items => rfl
  | _ => cases hk

theorem filterMap_field {name : Option String} (h : ∀ v ∈ vs, v.class? = some (.record name))
    (key : String) :
    vs.filterMap (Value.field? key) = vs.map fun v => (v.field? key).getD .null := by
  apply filterMap_eq_map_getD
  intro v hv
  have hk := h v hv
  cases v with
  | record name fields => rfl
  | _ => cases hk

theorem length_filterMap_slot {n : Nat} (h : ∀ m ∈ seen vs stack, m = some (.tuple n)) (i : Nat) :
    (vs.filterMap (Value.slot? i)).length = vs.length := by
  rw [filterMap_slot fun v hv => h _ (class?_mem_seen hv stack), List.length_map]

theorem length_filterMap_field {name : Option String}
    (h : ∀ m ∈ seen vs stack, m = some (.record name)) (key : String) :
    (vs.filterMap (Value.field? key)).length = vs.length := by
  rw [filterMap_field fun v hv => h _ (class?_mem_seen hv stack), List.length_map]

/-- A slot with its value for the row that ends, or a missing one. -/
theorem fits_fillSlot {n : Nat} {v? : Option Value} (hs : c.Sound) (hn : vs.length = n)
    (h : Fits o fresh c (vs ++ v?.toList) []) :
    Fits o fresh (fillSlot n c) (vs ++ [v?.getD .null]) [] := by
  have hlen := h.length
  unfold fillSlot
  cases v? with
  | none =>
    rw [Option.toList_none, List.append_nil] at h hlen
    rw [if_pos (by omega)]
    exact fits_appendNull hs h
  | some v =>
    rw [List.length_append] at hlen
    rw [if_neg (by simp at hlen; omega)]
    exact h

/-- What the selected slot of a tuple takes goes there and nowhere else. -/
theorem deliver_tuple {filled : List (Option Value)} {i : Nat} (hi : i < filled.length)
    (hnone : (filled[i]?).join = none) (v? : Option Value) :
    ∃ filled', (Unfinished.tuple filled (some i)).deliver v? = .tuple filled' (some i) ∧
      filled'.length = filled.length ∧ (filled'[i]?).join = v? ∧
      ∀ j, j ≠ i → filled'[j]? = filled[j]? := by
  cases v? with
  | none => exact ⟨filled, rfl, rfl, hnone, fun _ _ => rfl⟩
  | some v =>
    refine ⟨filled.set i (some v), rfl, List.length_set, ?_, ?_⟩
    · rw [List.getElem?_set_self hi]
      rfl
    · intro j hj
      rw [List.getElem?_set_ne (Ne.symm hj)]

theorem lookup_fillEntry {entries : List (String × Option Value)} {key : String} {v : Value}
    (h : lookup entries key = some none) :
    (Unfinished.fillEntry entries key v).map Prod.fst = entries.map Prod.fst ∧
      lookup (Unfinished.fillEntry entries key v) key = some (some v) ∧
      ∀ k, k ≠ key → lookup (Unfinished.fillEntry entries key v) k = lookup entries k := by
  induction entries with
  | nil => cases h
  | cons e rest ih =>
    obtain ⟨k, v?⟩ := e
    by_cases hk : k = key
    · subst hk
      rw [lookup, if_pos rfl] at h
      cases h
      refine ⟨by simp [Unfinished.fillEntry], by simp [Unfinished.fillEntry, lookup], ?_⟩
      intro k' hne
      simp [Unfinished.fillEntry, lookup, Ne.symm hne]
    · rw [lookup, if_neg hk] at h
      obtain ⟨hkeys, hself, hother⟩ := ih h
      cases v? with
      | none =>
        simp only [Unfinished.fillEntry, if_neg hk, List.map_cons, hkeys, lookup, hself, true_and]
        intro k' hne
        rw [hother k' hne]
      | some w =>
        simp only [Unfinished.fillEntry, List.map_cons, hkeys, lookup, if_neg hk, hself, true_and]
        intro k' hne
        rw [hother k' hne]

/-- What the selected field of a record takes goes there and nowhere else. -/
theorem deliver_record (name : Option String) {entries : List (String × Option Value)}
    {key : String} (hmem : key ∈ entries.map Prod.fst)
    (hnone : (lookup entries key).join = none) (v? : Option Value) :
    ∃ entries', (Unfinished.record name entries (some key)).deliver v?
        = .record name entries' (some key) ∧
      entries'.map Prod.fst = entries.map Prod.fst ∧ (lookup entries' key).join = v? ∧
      ∀ k, k ≠ key → lookup entries' k = lookup entries k := by
  cases v? with
  | none => exact ⟨entries, rfl, rfl, hnone, fun _ _ => rfl⟩
  | some v =>
    have hlookup : lookup entries key = some none := by
      cases h : lookup entries key with
      | none => exact absurd hmem (lookup_eq_none_iff.mp h)
      | some w =>
        rw [h] at hnone
        cases w with
        | none => rfl
        | some w => cases hnone
    obtain ⟨hkeys, hself, hother⟩ := lookup_fillEntry (v := v) hlookup
    exact ⟨_, rfl, hkeys, by rw [hself]; rfl, hother⟩

/-! ### Tuples -/

/-- Nothing is under way below an open tuple whose selected slot is not open. -/
theorem tuple_inner_eq_nil {slots : List Column} {n : Nat} {slot : Option Nat}
    {filled : List (Option Value)} {inner : List Unfinished}
    (hs : SlotsSound slots n (.filling slot)) (ha : isSlotActive slots (.filling slot) = false)
    (hslot : slot = none → inner = [])
    (hc : ∀ i c, slots[i]? = some c →
      Fits o fresh c (vs.filterMap (Value.slot? i) ++ (filled[i]?).join.toList)
        (if slot = some i then inner else [])) : inner = [] := by
  cases slot with
  | none => exact hslot rfl
  | some i =>
    have hi := List.getElem?_eq_getElem (hs.selected i rfl)
    have hfit := hc i _ hi
    rw [if_pos rfl] at hfit
    exact hfit.stack_eq_nil (hs.not_active ha (List.mem_of_getElem? hi))

theorem fits_tuple_index {slots : List Column} {n i : Nat} {slot : Option Nat}
    (hs : (Column.tuple slots n (.filling slot)).Sound)
    (ha : isSlotActive slots (.filling slot) = false)
    (h : Fits o fresh (.tuple slots n (.filling slot)) vs stack) :
    Fits o fresh (.tuple slots n (.filling (some i))) (vs ++ (assemble stack (.index i)).1.toList)
      (assemble stack (.index i)).2 := by
  cases h with
  | tuple_open hk hn hslot hc =>
    obtain rfl := tuple_inner_eq_nil hs.node ha hslot hc
    have hk' := hk.advance (.index i)
    rw [assemble_select rfl] at hk' ⊢
    simp only [Option.toList_none, List.append_nil] at hk' ⊢
    refine .tuple_open hk' hn (fun _ => rfl) ?_
    intro j c hj
    have hfit := hc j c hj
    rw [ite_self] at hfit ⊢
    exact hfit

theorem fits_tuple_end {slots : List Column} {n : Nat} {slot : Option Nat}
    (hs : (Column.tuple slots n (.filling slot)).Sound)
    (ha : isSlotActive slots (.filling slot) = false)
    (h : Fits o fresh (.tuple slots n (.filling slot)) vs stack) :
    Fits o fresh (.tuple (fillSlots n slots) (n + 1) .closed)
      (vs ++ (assemble stack .endTuple).1.toList) (assemble stack .endTuple).2 := by
  cases h with
  | @tuple_open _ _ _ filled _ _ hk hn hslot hc =>
    obtain rfl := tuple_inner_eq_nil hs.node ha hslot hc
    have hk' := hk.advance .endTuple
    rw [assemble_close rfl] at hk' ⊢
    refine .tuple (by rwa [fillSlots, List.length_map]) (by simp [hn]) ?_
    intro i c hi
    rw [fillSlots, List.getElem?_map, Option.map_eq_some_iff] at hi
    obtain ⟨d, hd, rfl⟩ := hi
    have hfit := hc i d hd
    rw [ite_self] at hfit
    -- a slot without a value for this row is given a missing one
    have hfill := fits_fillSlot (hs.children d (List.mem_of_getElem? hd))
      ((length_filterMap_slot hk.all i).trans hn.symm) hfit
    have hlast : (Unfinished.tuple filled slot).value.slot? i
        = some ((filled[i]?).join.getD .null) := by
      rw [Unfinished.value, Value.slot?, List.getElem?_map]
      cases filled[i]? <;> rfl
    rw [List.filterMap_append, Option.toList_some, List.filterMap_cons_some hlast,
      List.filterMap_nil]
    exact hfill

theorem fits_tuple_slot {slots : List Column} {n i : Nat} {c c' : Column}
    (hi : slots[i]? = some c) (hlen : c.length ≤ n) (ht : Takes o c p c')
    (h : Fits o fresh (.tuple slots n (.filling (some i))) vs stack)
    (hc' : ∀ {ws : List Value} {st : List Unfinished}, Fits o fresh c ws st →
      Fits o fresh c' (ws ++ (assemble st p).1.toList) (assemble st p).2) :
    Fits o fresh (.tuple (slots.set i c') n (.filling (some i)))
      (vs ++ (assemble stack p).1.toList) (assemble stack p).2 := by
  cases h with
  | @tuple_open _ _ _ filled _ inner hk hn hslot hc =>
    have hk' := hk.advance p
    have hfit := hc i c hi
    rw [if_pos rfl] at hfit
    have hinner := hfit.inner_or_begins ht
    have hsize : filled.length = slots.length := by
      have hf := hk.all _ (List.mem_append_right _ (List.mem_singleton_self _))
      exact ElementClass.tuple.inj (Option.some.inj hf)
    have hilt := (List.getElem?_eq_some_iff.mp hi).1
    -- with a value for this row the slot would be longer than the column
    have hnone : (filled[i]?).join = none := by
      have hlength := hfit.length
      rw [List.length_append, length_filterMap_slot hk.all] at hlength
      cases hv : (filled[i]?).join with
      | none => rfl
      | some v =>
        rw [hv] at hlength
        simp at hlength
        omega
    rw [assemble_inner hinner] at hk' ⊢
    obtain ⟨filled', hdeliver, hlength, hself, hother⟩ :=
      deliver_tuple (by omega) hnone (assemble inner p).1
    rw [hdeliver] at hk' ⊢
    simp only [Option.toList_none, List.append_nil] at hk' ⊢
    refine .tuple_open (by rwa [List.length_set]) hn (by simp) ?_
    intro j d hj
    rw [List.getElem?_set] at hj
    split at hj
    -- the selected slot takes what is complete below it
    · next hij =>
      subst hij
      cases hj
      rw [if_pos rfl, hself]
      rw [hnone, Option.toList_none, List.append_nil] at hfit
      exact hc' hfit
    -- every other slot stays as it is
    · next hij =>
      have hold := hc j d hj
      have hne : some i ≠ some j := fun h => hij (Option.some.inj h)
      rw [if_neg hne] at hold ⊢
      rw [hother j (Ne.symm hij)]
      exact hold

/-! ### Records -/

theorem record_inner_eq_nil {fields : List (String × Column)} {n : Nat} {slot : Option Nat}
    {entries : List (String × Option Value)} {key : Option String} {inner : List Unfinished}
    (hs : SlotsSound (columnsOf fields) n (.filling slot))
    (ha : isSlotActive (columnsOf fields) (.filling slot) = false)
    (hslot : key = slot.bind fun i => (fields.map Prod.fst)[i]?) (hkey : key = none → inner = [])
    (hc : ∀ k c, (k, c) ∈ fields →
      Fits o fresh c (vs.filterMap (Value.field? k) ++ (lookup entries k).join.toList)
        (if key = some k then inner else [])) : inner = [] := by
  cases slot with
  | none => exact hkey hslot
  | some i =>
    have hi : i < fields.length := by simpa [columnsOf] using hs.selected i rfl
    have hmem := List.getElem_mem hi
    have hk : key = some fields[i].1 := by
      rw [hslot, Option.bind_some, List.getElem?_map, List.getElem?_eq_getElem hi]
      rfl
    have hfit := hc fields[i].1 fields[i].2 hmem
    rw [if_pos hk] at hfit
    exact hfit.stack_eq_nil (hs.not_active ha (List.mem_map_of_mem hmem))

theorem keys_addEntry (entries : List (String × Option Value)) (key : String) :
    key ∈ entries.map Prod.fst ∧
        (Unfinished.addEntry entries key).map Prod.fst = entries.map Prod.fst ∨
      (Unfinished.addEntry entries key).map Prod.fst = entries.map Prod.fst ++ [key] := by
  unfold Unfinished.addEntry
  split
  · next h => exact .inl ⟨List.mem_map_of_mem (mem_of_lookup h), rfl⟩
  · exact .inr (by simp)

theorem mem_keys_addEntry (entries : List (String × Option Value)) (key : String) :
    key ∈ (Unfinished.addEntry entries key).map Prod.fst := by
  rcases keys_addEntry entries key with ⟨hmem, heq⟩ | heq
  · rwa [heq]
  · rw [heq]
    exact List.mem_append_right _ (List.mem_singleton_self _)

/-- A field is added once if those that are selected again have no value. -/
theorem nodup_keys_addEntry {entries : List (String × Option Value)} {key : String}
    (hnone : (lookup entries key).join = none) (hnd : (entries.map Prod.fst).Nodup) :
    ((Unfinished.addEntry entries key).map Prod.fst).Nodup := by
  unfold Unfinished.addEntry
  split
  · exact hnd
  · next h =>
    have hnew : key ∉ entries.map Prod.fst := by
      apply lookup_eq_none_iff.mp
      cases hl : lookup entries key with
      | none => rfl
      | some v? =>
        rw [hl] at hnone h
        cases v? with
        | none => exact absurd rfl h
        | some v => cases hnone
    exact nodup_keys_concat hnd hnew none

/-- A field that is selected has a value only if it had one before. -/
theorem lookup_addEntry {entries : List (String × Option Value)} {key : String}
    (hnone : (lookup entries key).join = none) (k : String) :
    (lookup (Unfinished.addEntry entries key) k).join = (lookup entries k).join := by
  -- an entry at the end is found only if no entry before it has the key
  have happend : ∀ l : List (String × Option Value), lookup l key ≠ none ∨
      (lookup (l ++ [(key, none)]) k).join = (lookup l k).join := by
    intro l
    induction l with
    | nil =>
      right
      by_cases hk : key = k <;> simp [lookup, hk]
    | cons e rest ih =>
      obtain ⟨k', v?⟩ := e
      by_cases hk : k' = key
      · exact .inl (by simp [lookup, hk])
      · rcases ih with ih | ih
        · exact .inl (by simpa [lookup, hk] using ih)
        · right
          by_cases hk' : k' = k <;> simp [lookup, hk', ih]
  unfold Unfinished.addEntry
  split
  · rfl
  · next h =>
    rcases happend entries with hsome | heq
    · cases hl : lookup entries key with
      | none => exact absurd hl hsome
      | some v? =>
        rw [hl] at hnone
        cases v? with
        | none => exact absurd hl h
        | some v => cases hnone
    · exact heq

/-- A field is selected, and added if there is none of its key. -/
theorem KeysFit.select {name : Option String} {keys before : List String}
    {entries : List (String × Option Value)}
    (h : KeysFit o fresh name keys (before ++ entries.map Prod.fst)) (key : String) :
    KeysFit o fresh name (if key ∈ keys then keys else keys ++ [key])
      (before ++ (Unfinished.addEntry entries key).map Prod.fst) := by
  rcases keys_addEntry entries key with ⟨hmem, heq⟩ | heq
  · rw [heq, if_pos (h.mem key (List.mem_append_right _ hmem))]
    exact h
  · rw [heq, ← List.append_assoc]
    refine ⟨?_, ?_⟩
    · intro k hk
      rcases List.mem_append.mp hk with hk | hk
      · split
        · exact h.mem k hk
        · exact List.mem_append_left _ (h.mem k hk)
      · rw [List.mem_singleton.mp hk]
        split
        · assumption
        · exact List.mem_append_right _ (List.mem_singleton_self _)
    · intro hf
      rw [← List.append_assoc, List.eraseDups_concat, ← h.eq hf]
      have hiff : key ∈ keys ↔ key ∈ (o.declaredFields? name).getD []
          ++ (before ++ entries.map Prod.fst) := by
        rw [h.eq hf, List.mem_eraseDups]
      simp only [hiff]

/-- A field that takes a value in this row has none in the open record. -/
theorem lookup_join_eq_none {name : Option String} {entries : List (String × Option Value)}
    {key : String} {n : Nat} {st : List Unfinished}
    (hk : ∀ m ∈ seen vs stack, m = some (.record name)) (hn : n = vs.length) (hlen : c.length ≤ n)
    (h : Fits o fresh c (vs.filterMap (Value.field? key) ++ (lookup entries key).join.toList) st) :
    (lookup entries key).join = none := by
  have hlength := h.length
  rw [List.length_append, length_filterMap_field hk] at hlength
  cases hv : (lookup entries key).join with
  | none => rfl
  | some v =>
    rw [hv] at hlength
    simp at hlength
    omega

theorem fits_record_field {name : Option String} {fields : List (String × Column)} {n i : Nat}
    {slot : Option Nat} {settled declared : Bool} {key : String} {check : Bool}
    (hs : (Column.record name fields n (.filling slot) settled declared).Sound)
    (ha : isSlotActive (columnsOf fields) (.filling slot) = false)
    (hi : fieldIndex? fields key = some i) (hci : (columnsOf fields)[i]? = some c)
    (hlen : c.length ≤ n)
    (h : Fits o fresh (.record name fields n (.filling slot) settled declared) vs stack) :
    Fits o fresh (.record name fields n (.filling (some i)) settled declared)
      (vs ++ (assemble stack (.field key check)).1.toList)
      (assemble stack (.field key check)).2 := by
  cases h with
  | @record_open _ _ _ _ _ _ _ entries _ inner hk hn hkeys hdistinct hentries hslot hkey hentry
      hc =>
    obtain rfl := record_inner_eq_nil hs.node.1 ha hslot hkey hc
    have hkeyi := fieldIndex?_eq_some hi
    have hmem := mem_fields hkeyi hci
    have hnone := lookup_join_eq_none hk.all hn hlen (hc key c hmem)
    have hk' := hk.advance (.field key check)
    have hkeys' := hkeys.select key
    rw [if_pos (List.mem_of_getElem? hkeyi)] at hkeys'
    rw [assemble_select rfl] at hk' ⊢
    simp only [Option.toList_none, List.append_nil, Unfinished.select] at hk' ⊢
    refine .record_open hk' hn hkeys' hdistinct (nodup_keys_addEntry hnone hentries)
      (by rw [Option.bind_some, hkeyi]) (by simp) ?_ ?_
    · rintro k ⟨rfl⟩
      exact mem_keys_addEntry entries key
    · intro k d hd
      have hfit := hc k d hd
      rw [ite_self] at hfit ⊢
      rwa [lookup_addEntry hnone]

theorem fits_record_new {name : Option String} {fields : List (String × Column)} {n : Nat}
    {slot : Option Nat} {settled declared : Bool} {key : String} {check : Bool}
    (hs : (Column.record name fields n (.filling slot) settled declared).Sound)
    (ha : isSlotActive (columnsOf fields) (.filling slot) = false)
    (hi : fieldIndex? fields key = none)
    (h : Fits o fresh (.record name fields n (.filling slot) settled declared) vs stack) :
    Fits o fresh (.record name (fields ++ [(key, .unknown n)]) n (.filling (some fields.length))
        settled declared)
      (vs ++ (assemble stack (.field key check)).1.toList)
      (assemble stack (.field key check)).2 := by
  cases h with
  | @record_open _ _ _ _ _ _ _ entries _ inner hk hn hkeys hdistinct hentries hslot hkey hentry
      hc =>
    obtain rfl := record_inner_eq_nil hs.node.1 ha hslot hkey hc
    have hnew := fieldIndex?_eq_none.mp hi
    have hnotEntry : key ∉ entries.map Prod.fst := fun hmem =>
      hnew (hkeys.mem key (List.mem_append_right _ hmem))
    have hnone : lookup entries key = none := lookup_eq_none_iff.mpr hnotEntry
    have hk' := hk.advance (.field key check)
    have hkeys' := hkeys.select key
    rw [if_neg hnew] at hkeys'
    rw [assemble_select rfl] at hk' ⊢
    simp only [Option.toList_none, List.append_nil, Unfinished.select] at hk' ⊢
    refine .record_open hk' hn (by simpa using hkeys') hdistinct
      (nodup_keys_addEntry (by rw [hnone]; rfl) hentries) (by simp) (by simp) ?_
      ?_
    · rintro k ⟨rfl⟩
      exact mem_keys_addEntry entries key
    · intro k d hd
      rw [ite_self, lookup_addEntry (by rw [hnone]; rfl)]
      rcases List.mem_append.mp hd with hd | hd
      · have hfit := hc k d hd
        rwa [ite_self] at hfit
      · cases List.mem_singleton.mp hd
        -- the new field is missing in all records so far
        have hmissing : vs.filterMap (Value.field? key) = List.replicate n .null := by
          rw [List.eq_replicate_iff]
          refine ⟨(length_filterMap_field hk.all key).trans hn.symm, ?_⟩
          intro v hv
          obtain ⟨w, hw, hfield⟩ := List.mem_filterMap.mp hv
          cases w with
          | record name fs =>
            have hnotKey : lookup fs key = none := by
              refine lookup_eq_none_iff.mpr fun hmem => hnew (hkeys.mem key ?_)
              exact List.mem_append_left _ (List.mem_flatMap.mpr ⟨_, hw, hmem⟩)
            rw [Value.field?, hnotKey] at hfield
            exact (Option.some.inj hfield).symm
          | _ => cases hfield
        rw [hmissing, hnone]
        simp only [Option.join_none, Option.toList_none, List.append_nil]
        exact .unknown n

theorem fits_record_end {name : Option String} {fields : List (String × Column)} {n : Nat}
    {slot : Option Nat} {settled settled' declared : Bool}
    (hs : (Column.record name fields n (.filling slot) settled declared).Sound)
    (ha : isSlotActive (columnsOf fields) (.filling slot) = false)
    (h : Fits o fresh (.record name fields n (.filling slot) settled declared) vs stack) :
    Fits o fresh (.record name (fillFields n fields) (n + 1) .closed settled' declared)
      (vs ++ (assemble stack .endRecord).1.toList) (assemble stack .endRecord).2 := by
  cases h with
  | @record_open _ _ _ _ _ _ _ entries key inner hk hn hkeys hdistinct hentries hslot hkey hentry
      hc =>
    obtain rfl := record_inner_eq_nil hs.node.1 ha hslot hkey hc
    have hk' := hk.advance .endRecord
    rw [assemble_close rfl] at hk' ⊢
    have hvalue : (Unfinished.record name entries key).value.keys = entries.map Prod.fst := by
      simp [Unfinished.value, Value.keys, Function.comp_def]
    refine .record hk' (by simp [hn]) ?_ ?_ ?_
    · rw [keys_fillFields]
      simpa [hvalue] using hkeys
    · intro v hv
      rcases List.mem_append.mp hv with hv | hv
      · exact hdistinct v hv
      · rw [List.mem_singleton.mp hv, hvalue]
        exact hentries
    · intro k c hmem
      obtain ⟨⟨k', d⟩, hd, heq⟩ := List.mem_map.mp hmem
      cases heq
      have hfit := hc k d hd
      rw [ite_self] at hfit
      -- a field that was not selected, or given no value, is given a missing one
      have hfill := fits_fillSlot (hs.children d (List.mem_map_of_mem hd))
        ((length_filterMap_field hk.all k).trans hn.symm) hfit
      have hlast : (Unfinished.record name entries key).value.field? k
          = some ((lookup entries k).join.getD .null) := by
        rw [Unfinished.value, Value.field?, lookup_map (fun v? : Option Value => v?.getD .null)]
        cases lookup entries k <;> rfl
      rw [List.filterMap_append, Option.toList_some, List.filterMap_cons_some hlast,
        List.filterMap_nil]
      exact hfill

theorem fits_record_slot {name : Option String} {fields : List (String × Column)} {n i : Nat}
    {settled declared : Bool} {c c' : Column}
    (hs : (Column.record name fields n (.filling (some i)) settled declared).Sound)
    (hci : (columnsOf fields)[i]? = some c) (hlen : c.length ≤ n) (ht : Takes o c p c')
    (h : Fits o fresh (.record name fields n (.filling (some i)) settled declared) vs stack)
    (hc' : ∀ {ws : List Value} {st : List Unfinished}, Fits o fresh c ws st →
      Fits o fresh c' (ws ++ (assemble st p).1.toList) (assemble st p).2) :
    Fits o fresh (.record name (setField fields i c') n (.filling (some i)) settled declared)
      (vs ++ (assemble stack p).1.toList) (assemble stack p).2 := by
  cases h with
  | @record_open _ _ _ _ _ _ _ entries key? inner hk hn hkeys hdistinct hentries hslot hkey hentry
      hc =>
    have hk' := hk.advance p
    -- the selected slot is a field, and its key is the one selected in the open record
    obtain ⟨key, hkeyi⟩ : ∃ key, (fields.map Prod.fst)[i]? = some key := by
      have hi : i < fields.length := by simpa [columnsOf] using hs.node.1.selected i rfl
      exact ⟨_, by rw [List.getElem?_map, List.getElem?_eq_getElem hi]; rfl⟩
    rw [Option.bind_some, hkeyi] at hslot
    subst hslot
    have hmem := mem_fields hkeyi hci
    have hfit := hc key c hmem
    have hnone := lookup_join_eq_none hk.all hn hlen hfit
    rw [if_pos rfl] at hfit
    have hinner := hfit.inner_or_begins ht
    rw [assemble_inner hinner] at hk' ⊢
    obtain ⟨entries', hdeliver, hkeys', hself, hother⟩ :=
      deliver_record name (hentry key rfl) hnone (assemble inner p).1
    rw [hdeliver] at hk' ⊢
    simp only [Option.toList_none, List.append_nil] at hk' ⊢
    refine .record_open hk' hn ?_ hdistinct ?_ ?_ (by simp) ?_ ?_
    · rwa [keys_setField, hkeys']
    · rwa [hkeys']
    · rw [keys_setField, Option.bind_some, hkeyi]
    · rwa [hkeys']
    · intro k d hd
      rcases (mem_setField hs.node.2 hkeyi).mp hd with ⟨rfl, rfl⟩ | ⟨hne, hd⟩
      · rw [if_pos rfl, hself]
        rw [hnone, Option.toList_none, List.append_nil] at hfit
        exact hc' hfit
      · have hold := hc k d hd
        have hne' : some key ≠ some k := fun h => hne (Option.some.inj h).symm
        rw [if_neg hne'] at hold ⊢
        rw [hother k hne]
        exact hold

end Columnar.Column
