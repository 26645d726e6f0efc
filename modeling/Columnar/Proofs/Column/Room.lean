import Columnar.Proofs.Column.Accepts
import Columnar.Proofs.Column.Begun

/-!
# Room for what another column holds

A union has room for a limited number of classes.  A column that was never cleared gives room
to no class but those of its elements; so if some column holds values, another one has room
for them as well, whatever it has been given of them so far, and for every part of them on
the way.

## Main definitions

* `Inside` — a value is to come, inside containers under way, as a part of known values.

## Main results

* `Column.Fits.exists_classes`, `Column.Fits.exists_ofClass` — the classes that a column holds,
  and the column that holds the values of one of them.
* `Column.Fits.not_isFull` — **there is room for a value of which a column holds the like.**
-/

namespace Columnar

/-! ### Values to come -/

/-- A value is to come next inside containers that are under way, the outermost first, and
some of the values `us` have it as a part in the same place. -/
inductive Inside : List Value → List Unfinished → Value → Prop
  /-- Outside of all containers. -/
  | here {us : List Value} {v : Value} (hv : v ∈ us) : Inside us [] v
  /-- In a list, after items that the values have as well. -/
  | item {us items : List Value} {inner : List Unfinished} {v : Value}
      (hitems : items ⊆ us.flatMap Value.items) (h : Inside (us.flatMap Value.items) inner v) :
      Inside us (.list items :: inner) v
  /-- In the selected slot of a tuple, which is free. -/
  | slot {us : List Value} {filled : List (Option Value)} {i : Nat} {inner : List Unfinished}
      {v : Value} (hfree : (filled[i]?).join = none)
      (h : Inside ((Value.ofClass (some (.tuple filled.length)) us).filterMap (Value.slot? i))
        inner v) : Inside us (.tuple filled (some i) :: inner) v
  /-- In the selected field of a record, which is free. -/
  | field {us : List Value} {name : Option String} {entries : List (String × Option Value)}
      {key : String} {inner : List Unfinished} {v : Value}
      (hfree : (lookup entries key).join = none)
      (hkey : key ∈ (Value.ofClass (some (.record name)) us).flatMap Value.keys)
      (h : Inside ((Value.ofClass (some (.record name)) us).filterMap (Value.field? key))
        inner v) : Inside us (.record name entries (some key) :: inner) v

namespace Inside

variable {us : List Value} {stack : List Unfinished} {v : Value}

theorem ne_nil (h : Inside us stack v) : us ≠ [] := by
  induction h with
  | here hv => exact List.ne_nil_of_mem hv
  | item _ _ ih | slot _ _ ih | field _ _ _ ih =>
    rintro rfl
    exact ih rfl

/-- An item of a list that is to come is to come in the list. -/
theorem item_of {items before : List Value} (h : Inside us stack (.list items))
    (hbefore : before ⊆ items) (hv : v ∈ items) :
    Inside us (stack ++ [.list before]) v := by
  generalize hl : Value.list items = l at h
  induction h with
  | here hmem =>
    subst hl
    have hitems : ∀ w ∈ items, w ∈ List.flatMap Value.items _ := fun w hw =>
      List.mem_flatMap.mpr ⟨_, hmem, hw⟩
    exact .item (fun w hw => hitems w (hbefore hw)) (.here (hitems v hv))
  | item hitems _ ih => exact .item hitems (ih hl)
  | slot hfree _ ih => exact .slot hfree (ih hl)
  | field hfree hkey _ ih => exact .field hfree hkey (ih hl)

theorem slot_of {items : List Value} {filled : List (Option Value)} {i : Nat}
    (h : Inside us stack (.tuple items)) (hlen : filled.length = items.length)
    (hfree : (filled[i]?).join = none) (hv : items[i]? = some v) :
    Inside us (stack ++ [.tuple filled (some i)]) v := by
  generalize hl : Value.tuple items = l at h
  induction h with
  | here hmem =>
    subst hl
    refine .slot hfree (.here (List.mem_filterMap.mpr ⟨_, List.mem_filter.mpr ⟨hmem, ?_⟩, ?_⟩))
    · rw [Value.class?, hlen]
      exact beq_self_eq_true _
    · rw [Value.slot?, hv]
      rfl
  | item hitems _ ih => exact .item hitems (ih hl)
  | slot hfree' _ ih => exact .slot hfree' (ih hl)
  | field hfree' hkey _ ih => exact .field hfree' hkey (ih hl)

theorem field_of {name : Option String} {fields : List (String × Value)}
    {entries : List (String × Option Value)} {key : String}
    (h : Inside us stack (.record name fields)) (hfree : (lookup entries key).join = none)
    (hv : lookup fields key = some v) :
    Inside us (stack ++ [.record name entries (some key)]) v := by
  generalize hl : Value.record name fields = l at h
  induction h with
  | @here us _ hmem =>
    subst hl
    have hrecord : Value.record name fields ∈ Value.ofClass (some (.record name)) us :=
      List.mem_filter.mpr ⟨hmem, beq_self_eq_true _⟩
    refine .field hfree ?_ (.here (List.mem_filterMap.mpr ⟨_, hrecord, ?_⟩))
    · exact List.mem_flatMap.mpr ⟨_, hrecord, List.mem_map_of_mem (mem_of_lookup hv)⟩
    · rw [Value.field?, hv]
      rfl
  | item hitems _ ih => exact .item hitems (ih hl)
  | slot hfree' _ ih => exact .slot hfree' (ih hl)
  | field hfree' hkey _ ih => exact .field hfree' hkey (ih hl)

end Inside

namespace Column

variable {o : Options} {fresh : Prop} {c d : Column} {us ws : List Value}
  {stack : List Unfinished} {v : Value} {k : ElementClass}

/-! ### The classes of a column -/

/-- The classes of the elements of a column are no more than a union can have. -/
theorem Fits.exists_classes (h : Fits o fresh c us []) (hs : c.Sound) :
    ∃ ks : List (Option ElementClass), ks.length ≤ maxUnionKinds ∧
      ∀ u ∈ us, u.class?.isSome → u.class? ∈ ks := by
  induction c using Column.induct generalizing us with
  | node c ih =>
    cases hk : c.class? with
    | some k =>
      refine ⟨[some k], Nat.le_of_ble_eq_true rfl, fun u hu _ => ?_⟩
      rw [h.all_class hk _ (class?_mem_seen hu [])]
      exact List.mem_singleton_self _
    | none =>
      cases h with
      | unknown n =>
        refine ⟨[], Nat.zero_le _, fun u hu hsome => ?_⟩
        rw [List.eq_of_mem_replicate hu] at hsome
        cases hsome
      | option _ _ hc =>
        obtain ⟨ks, hle, hks⟩ := ih _ (List.mem_singleton_self _) hc
          (hs.children _ (List.mem_singleton_self _))
        exact ⟨ks, hle, fun u hu hsome => hks u (List.mem_filter.mpr ⟨hu, hsome⟩) hsome⟩
      | @union _ _ children _ _ _ _ _ hmem =>
        exact ⟨children.map class?, by rw [List.length_map]; exact hs.node.le_max,
          fun u hu _ => hmem _ (class?_mem_seen hu [])⟩
      | _ => cases hk

/-- The elements of a class are held by a column of this class. -/
theorem Fits.exists_ofClass (h : Fits o fresh c us []) (hs : c.Sound)
    (hk : some k ∈ us.map Value.class?) :
    ∃ d, d.class? = some k ∧ d.Sound ∧ Fits o fresh d (Value.ofClass (some k) us) [] := by
  induction c using Column.induct generalizing us with
  | node c ih =>
    obtain ⟨u, hu, huk⟩ := List.mem_map.mp hk
    cases hc : c.class? with
    | some m =>
      have hall := h.all_class hc
      obtain rfl : k = m := by
        have hum := hall _ (class?_mem_seen hu [])
        rw [huk] at hum
        exact Option.some.inj hum
      have hself : Value.ofClass (some k) us = us := by
        refine List.filter_eq_self.mpr fun w hw => ?_
        rw [hall _ (class?_mem_seen hw [])]
        exact beq_self_eq_true _
      exact ⟨c, hc, hs, hself.symm ▸ h⟩
    | none =>
      cases h with
      | unknown n =>
        rw [List.eq_of_mem_replicate hu] at huk
        cases huk
      | option _ _ hcontent =>
        have hpresent : Value.ofClass (some k) (Value.present us) = Value.ofClass (some k) us := by
          rw [Value.ofClass, Value.present, List.filter_filter]
          refine List.filter_congr fun w _ => ?_
          cases hw : w.class? <;> simp
        rw [← hpresent]
        refine ih _ (List.mem_singleton_self _) hcontent (hs.children _ (List.mem_singleton_self _))
          (List.mem_map.mpr ⟨u, List.mem_filter.mpr ⟨hu, ?_⟩, huk⟩)
        rw [huk]
        rfl
      | union _ _ hmem _ _ hchild =>
        obtain ⟨d, hd, hdk⟩ := List.mem_map.mp (hmem _ (class?_mem_seen hu []))
        rw [huk] at hdk
        exact ⟨d, hdk, hs.children d hd, hdk ▸ hchild d hd⟩
      | _ => cases hc

/-! ### The columns of parts -/

/-- Only lists have items. -/
theorem flatMap_items_ofClass (us : List Value) :
    (Value.ofClass (some .list) us).flatMap Value.items = us.flatMap Value.items := by
  induction us with
  | nil => rfl
  | cons u us ih =>
    rw [Value.ofClass, List.filter_cons]
    cases u <;> simpa [Value.class?, Value.items, Value.ofClass] using ih

theorem subset_ofClass {m : Option ElementClass} (hws : ws ⊆ us)
    (hm : ∀ w ∈ ws, w.class? = m) : ws ⊆ Value.ofClass m us := by
  intro w hw
  refine List.mem_filter.mpr ⟨hws hw, ?_⟩
  rw [hm w hw]
  exact beq_self_eq_true _

theorem mem_map_class?_of_ofClass {m : Option ElementClass} {f : Value → Option Value}
    (h : (Value.ofClass m us).filterMap f ≠ []) : m ∈ us.map Value.class? := by
  obtain ⟨w, hw⟩ := List.exists_mem_of_ne_nil _ h
  obtain ⟨u, hu, -⟩ := List.mem_filterMap.mp hw
  obtain ⟨hu, hum⟩ := List.mem_filter.mp hu
  exact List.mem_map.mpr ⟨u, hu, by simpa using hum⟩

/-- The items of lists are held by a column. -/
theorem Fits.exists_items (h : Fits o fresh c us []) (hs : c.Sound)
    (hne : us.flatMap Value.items ≠ []) :
    ∃ d, d.Sound ∧ Fits o fresh d (us.flatMap Value.items) [] := by
  have hk : some .list ∈ us.map Value.class? := by
    obtain ⟨w, hw⟩ := List.exists_mem_of_ne_nil _ hne
    obtain ⟨u, hu, hw⟩ := List.mem_flatMap.mp hw
    refine List.mem_map.mpr ⟨u, hu, ?_⟩
    cases u with
    | list => rfl
    | _ => cases hw
  obtain ⟨e, hek, hes, he⟩ := h.exists_ofClass hs hk
  rw [← flatMap_items_ofClass]
  generalize Value.ofClass (some .list) us = vs at he
  cases he with
  | list _ _ hcontent => exact ⟨_, hes.children _ (List.mem_singleton_self _), hcontent⟩
  | _ => cases hek

/-- The values in a slot of tuples are held by a column. -/
theorem Fits.exists_slot {n i : Nat} (h : Fits o fresh c us []) (hs : c.Sound) (hi : i < n)
    (hne : (Value.ofClass (some (.tuple n)) us).filterMap (Value.slot? i) ≠ []) :
    ∃ d, d.Sound ∧
      Fits o fresh d ((Value.ofClass (some (.tuple n)) us).filterMap (Value.slot? i)) [] := by
  obtain ⟨e, hek, hes, he⟩ := h.exists_ofClass hs (mem_map_class?_of_ofClass hne)
  generalize Value.ofClass (some (.tuple n)) us = vs at he
  cases he with
  | @tuple slots _ _ _ _ hslots =>
    cases hek
    have hd := List.getElem?_eq_getElem hi
    exact ⟨_, hes.children _ (List.mem_of_getElem? hd), hslots i _ hd⟩
  | _ => cases hek

/-- The values in a field of records are held by a column. -/
theorem Fits.exists_field {name : Option String} {key : String} (h : Fits o fresh c us [])
    (hs : c.Sound) (hkey : key ∈ (Value.ofClass (some (.record name)) us).flatMap Value.keys)
    (hne : (Value.ofClass (some (.record name)) us).filterMap (Value.field? key) ≠ []) :
    ∃ d, d.Sound ∧
      Fits o fresh d ((Value.ofClass (some (.record name)) us).filterMap (Value.field? key))
        [] := by
  obtain ⟨e, hek, hes, he⟩ := h.exists_ofClass hs (mem_map_class?_of_ofClass hne)
  generalize Value.ofClass (some (.record name)) us = vs at he hkey
  cases he with
  | record _ _ hkeys _ hfields =>
    obtain ⟨⟨key, d⟩, hd, rfl⟩ := List.mem_map.mp (hkeys.mem key hkey)
    exact ⟨d, hes.children _ (List.mem_map_of_mem hd), hfields key d hd⟩
  | _ => cases hek

/-! ### Room -/

theorem stackOf_of_ne_nil {m : Option ElementClass} (h : stackOf m stack ≠ []) :
    stackOf m stack = stack := by
  cases stack with
  | nil => rfl
  | cons f inner =>
    rw [stackOf] at h ⊢
    split at h
    · next hm => rw [if_pos hm]
    · exact absurd rfl h

/-- A union of the classes of some elements has room for those of other ones, which a column
holds together with them. -/
theorem Fits.not_isFull_union {p : Push} {tags index : Array Nat} {children : List Column}
    {current : Option Nat} (hds : UnionSound tags index children current)
    (hclasses : children.map class? = (seen ws []).eraseDups) (hws : ws ⊆ us)
    (hc : Fits o fresh c us []) (hs : c.Sound) (hk : some k ∈ us.map Value.class?)
    (hp : p.elementClass? = some k) : ¬ (Column.union tags index children none).IsFull p := by
  rintro ⟨m, tags', index', children', hm, hplace, hlen, hnone⟩
  obtain rfl : k = m := Option.some.inj (hp.symm.trans hm)
  rw [place_of_none rfl] at hplace
  cases hplace
  obtain ⟨ks, hle, hks⟩ := hc.exists_classes hs
  -- one class more than a union can have
  have hnodup : (some k :: children.map class?).Nodup := by
    refine List.nodup_cons.mpr ⟨fun hmem => ?_, hds.distinct⟩
    obtain ⟨d, hd, hdk⟩ := List.mem_map.mp hmem
    exact hnone d hd hdk
  have hsubset : some k :: children.map class? ⊆ ks := by
    refine List.cons_subset.mpr ⟨?_, ?_⟩
    · obtain ⟨u, hu, huk⟩ := List.mem_map.mp hk
      exact huk ▸ hks u hu (by rw [huk]; rfl)
    · intro m hm
      obtain ⟨d, hd, rfl⟩ := List.mem_map.mp hm
      rw [hclasses, List.mem_eraseDups] at hm
      obtain ⟨u, hu, hud⟩ := List.mem_map.mp hm
      exact hud ▸ hks u (hws hu) (hud ▸ hds.classes d hd)
  have hcount := (hnodup.subperm hsubset).length_le
  rw [List.length_cons, List.length_map, hlen] at hcount
  omega

/-- **There is room for a value of which a column holds the like.**  While a column is given
parts of the values that another column holds, no union in it is full when the next part
begins. -/
theorem Fits.not_isFull {p : Push} (hd : Fits o True d ws stack) (hds : d.Sound)
    (hws : ws ⊆ us) (hin : Inside us stack v) (hv : v.class? = some k)
    (hc : Fits o fresh c us []) (hs : c.Sound) (hp : p.elementClass? = some k) :
    ¬ d.IsFull p := by
  induction d using Column.induct generalizing c us ws stack with
  | node d ih =>
    intro hfull
    -- the column below that the push passes to has room
    have hbelow : ∀ {d' c' : Column} {us ws : List Value} {stack : List Unfinished},
        d.inner? = some d' → Fits o True d' ws stack → ws ⊆ us → Inside us stack v →
        Fits o fresh c' us [] → c'.Sound → False := by
      intro d' c' us ws stack hinner hfit hws hin hc hs
      have hmem := mem_children_of_inner? hinner
      exact ih d' hmem hfit (hds.children d' hmem) hws hin hc hs (hfull.inner hinner)
    cases hd with
    | unknown n =>
      obtain ⟨_, _, _, _, -, hplace, -⟩ := hfull
      rw [place_of_none rfl] at hplace
      cases hplace
    | option _ _ hcontent =>
      exact hbelow rfl hcontent (fun w hw => hws (List.mem_of_mem_filter hw)) hin hc hs
    | bool | int64 | float64 | complex128 | time | string | list | tuple | record =>
      exact not_isFull_of_class rfl rfl hfull
    | list_open _ _ hcontent =>
      cases hin with
      | item hitems hin =>
        obtain ⟨e, hes, he⟩ := hc.exists_items hs hin.ne_nil
        refine hbelow rfl hcontent (List.append_subset.mpr ⟨?_, hitems⟩) hin he hes
        intro w hw
        obtain ⟨u, hu, hw⟩ := List.mem_flatMap.mp hw
        exact List.mem_flatMap.mpr ⟨u, hws hu, hw⟩
    | @tuple_open slots _ _ filled slot _ hk _ _ hslots =>
      cases hin with
      | @slot _ _ i _ _ hfree hin =>
        have hi := hds.node.selected i rfl
        have hd' := List.getElem?_eq_getElem hi
        have hfit := hslots i _ hd'
        rw [if_pos rfl, hfree, Option.toList_none, List.append_nil] at hfit
        have hlen : filled.length = slots.length :=
          ElementClass.tuple.inj (Option.some.inj (hk.all _ (List.mem_append_right _
            (List.mem_singleton_self _))))
        rw [hlen] at hin
        obtain ⟨e, hes, he⟩ := hc.exists_slot hs hi hin.ne_nil
        refine hbelow hd' hfit (List.filterMap_subset _ (subset_ofClass hws ?_)) hin he hes
        exact fun w hw => hk.all _ (class?_mem_seen hw _)
    | @record_open name fields _ slot _ _ _ entries _ _ hk _ _ _ _ hslot _ _ hfields =>
      cases hin with
      | @field _ _ _ key _ _ hfree hkey hin =>
        obtain ⟨i, rfl, hkeyi⟩ := Option.bind_eq_some_iff.mp hslot.symm
        have hd' := List.getElem?_eq_getElem (hds.node.1.selected i rfl)
        have hfit := hfields key _ (mem_fields hkeyi hd')
        rw [if_pos rfl, hfree, Option.toList_none, List.append_nil] at hfit
        obtain ⟨e, hes, he⟩ := hc.exists_field hs hkey hin.ne_nil
        refine hbelow hd' hfit (List.filterMap_subset _ (subset_ofClass hws ?_)) hin he hes
        exact fun w hw => hk.all _ (class?_mem_seen hw _)
    | @union _ _ children current _ stack htags hindex hmem hcurrent hclasses hchild =>
      cases stack with
      | nil =>
        obtain rfl : current = none := by simpa using hcurrent
        cases hin with
        | here hmem =>
          exact not_isFull_union hds.node (hclasses trivial) hws hc hs
            (List.mem_map.mpr ⟨v, hmem, hv⟩) hp hfull
      | cons f inner =>
        obtain ⟨tag, rfl⟩ : ∃ tag, current = some tag :=
          Option.isSome_iff_exists.mp (by simpa using hcurrent)
        have hd' := List.getElem?_eq_getElem (hds.node.last tag rfl).1
        have hfit := hchild _ (List.mem_of_getElem? hd')
        -- the current child is the one that holds the open container
        have hactive := (hds.node.active_iff tag _ hd').mpr rfl
        rw [hfit.isActive] at hactive
        rw [stackOf_of_ne_nil fun hnil => by rw [hnil] at hactive; cases hactive] at hfit
        exact hbelow hd' hfit (fun w hw => hws (List.mem_of_mem_filter hw)) hin hc hs

end Column

end Columnar
