import Columnar.Proofs.Column.Room
import Columnar.Proofs.Extending
import Columnar.Proofs.Holding

/-!
# Values that have to be taken

A value that does not nest deeper than the limit allows, and in which no record has a key
twice, is let through by the stack machine, wherever an element may begin.  Then nothing but a
full union can be in the way of it, and there is none if another column holds the like.

## Main definitions

* `Assembly.Comes`, `Assembly.AllCome` — a push begins a part of known values, and so do pushes
  one after another.

## Main results

* `Value.admits_pushes` — **the stack machine lets values through.**
* `Builder.exists_extend` — **a builder takes the values that another column holds.**
-/

namespace Columnar

/-! ### The stack machine -/

namespace Value

open Level

variable {limit : Nat}

theorem admits_flat {p : Push} {levels : List Level} (hp : p.Begins) (ho : p.opens? = none)
    (h : takesElement levels = true) : Admits limit levels [p] := by
  refine ⟨(allows_of_begins hp levels).trans h, fun hopens => ?_, trivial⟩
  rw [ho] at hopens
  cases hopens

/-- A container, by what stands in it. -/
theorem admits_container {p q : Push} {ps : List Push} {l l' : Level} {levels : List Level}
    (hp : p.Begins) (hl : opened? p = some l) (h : takesElement levels = true)
    (hlimit : levels.length < limit) (hps : Admits limit (l :: levels) ps)
    (hafter : after (l :: levels) ps = l' :: levels) (hq : q.closes? = some l'.container)
    (hs : q.selects? = none) : Admits limit levels (p :: ps ++ [q]) := by
  have hnext : next levels p = l :: levels := by
    cases p <;> cases hl <;> rfl
  refine ⟨(allows_of_begins hp levels).trans h, fun _ => hlimit, ?_⟩
  rw [hnext]
  refine admits_append.mpr ⟨hps, ?_, fun hopens => ?_, trivial⟩
  · rw [hafter, allows, hs, hq]
    simp
  · rw [Push.opens?_of_closes (by rw [hq]; rfl)] at hopens
    cases hopens

mutual

/-- **The stack machine lets values through** that are not too deep and have no double keys. -/
theorem admits_pushes : ∀ (v : Value) (levels : List Level), takesElement levels = true →
    levels.length + v.depth ≤ limit → v.KeysDistinct → Admits limit levels v.pushes
  | .null, levels => fun h _ _ => admits_flat (.inl rfl) rfl h
  | .bool _, levels | .int _, levels | .real _, levels | .complex _, levels
  | .datetime _ _, levels | .timedelta _ _, levels | .string _, levels | .bytes _, levels =>
    fun h _ _ => admits_flat (.inr ⟨_, rfl⟩) rfl h
  | .list items, levels => by
    intro h hdepth hkeys
    rw [depth] at hdepth
    obtain ⟨hinner, hafter⟩ := admits_itemPushes items levels (by omega) hkeys
    exact admits_container (.inr ⟨_, rfl⟩) rfl h (by omega) hinner hafter rfl rfl
  | .tuple items, levels => by
    intro h hdepth hkeys
    rw [depth] at hdepth
    obtain ⟨hinner, selected, filled, hafter⟩ := admits_slotPushes (n := items.length) items 0
      none ∅ levels (by simp) (by omega) (by omega) hkeys
    exact admits_container (.inr ⟨_, rfl⟩) rfl h (by omega) hinner hafter rfl rfl
  | .record name fields, levels => by
    intro h hdepth hkeys
    rw [depth] at hdepth
    obtain ⟨hinner, selected, filled, hafter⟩ := admits_fieldPushes fields none ∅ levels (by simp)
      (by omega) hkeys.1 hkeys.2
    exact admits_container (.inr ⟨_, rfl⟩) rfl h (by omega) hinner hafter rfl rfl
termination_by structural v => v

theorem admits_itemPushes : ∀ (vs : List Value) (outer : List Level),
    outer.length + 1 + itemsDepth vs ≤ limit → ItemsKeysDistinct vs →
      Admits limit (.list :: outer) (itemPushes vs) ∧
        after (.list :: outer) (itemPushes vs) = .list :: outer
  | [], _ => fun _ _ => ⟨trivial, rfl⟩
  | v :: vs, outer => by
    intro hdepth hkeys
    rw [itemsDepth] at hdepth
    have hfirst := admits_pushes v (.list :: outer) rfl (by rw [List.length_cons]; omega) hkeys.1
    obtain ⟨hrest, hafter⟩ := admits_itemPushes vs outer (by omega) hkeys.2
    have hv : after (.list :: outer) v.pushes = .list :: outer := (whole_pushes v).after_eq _
    rw [itemPushes, admits_append, after_append, hv]
    exact ⟨⟨hfirst, hrest⟩, hafter⟩
termination_by structural vs => vs

theorem admits_slotPushes {n : Nat} : ∀ (vs : List Value) (i : Nat) (selected : Option Nat)
    (filled : Finset Nat) (outer : List Level), (∀ j, i ≤ j → j ∉ filled) → i + vs.length ≤ n →
    outer.length + 1 + itemsDepth vs ≤ limit → ItemsKeysDistinct vs →
      Admits limit (.tuple n selected filled :: outer) (slotPushes i vs) ∧
        ∃ selected' filled', after (.tuple n selected filled :: outer) (slotPushes i vs)
          = .tuple n selected' filled' :: outer
  | [], _, selected, filled, _ => fun _ _ _ _ => ⟨trivial, selected, filled, rfl⟩
  | v :: vs, i, selected, filled, outer => by
    intro hfilled hlen hdepth hkeys
    rw [itemsDepth] at hdepth
    rw [List.length_cons] at hlen
    have hfree : i ∉ filled := hfilled i (Nat.le_refl i)
    have hfirst := admits_pushes v (.tuple n (some i) filled :: outer) (decide_eq_true hfree)
      (by rw [List.length_cons]; omega) hkeys.1
    obtain ⟨hrest, hafter⟩ := admits_slotPushes (n := n) vs (i + 1) (some i) (insert i filled)
      outer (fun j hj => by simpa [Nat.ne_of_gt hj] using hfilled j (by omega))
      (by omega) (by omega) hkeys.2
    have hv : after (.tuple n (some i) filled :: outer) v.pushes
        = .tuple n (some i) (insert i filled) :: outer := (whole_pushes v).after_eq _
    have hselect : next (.tuple n selected filled :: outer) (.index i)
        = .tuple n (some i) filled :: outer := rfl
    rw [slotPushes, admits_append, after_append, after_cons, hselect, hv]
    refine ⟨⟨⟨decide_eq_true ⟨by omega, hfree⟩, nofun, ?_⟩, hrest⟩, hafter⟩
    rw [hselect]
    exact hfirst
termination_by structural vs => vs

theorem admits_fieldPushes : ∀ (fields : List (String × Value)) (selected : Option String)
    (filled : Finset String) (outer : List Level),
    (∀ key ∈ fields.map Prod.fst, key ∉ filled) → outer.length + 1 + fieldsDepth fields ≤ limit →
    (fields.map Prod.fst).Nodup → FieldsKeysDistinct fields →
      Admits limit (.record selected filled :: outer) (fieldPushes fields) ∧
        ∃ selected' filled', after (.record selected filled :: outer) (fieldPushes fields)
          = .record selected' filled' :: outer
  | [], selected, filled, _ => fun _ _ _ _ => ⟨trivial, selected, filled, rfl⟩
  | (key, v) :: rest, selected, filled, outer => by
    intro hfilled hdepth hnodup hkeys
    rw [fieldsDepth] at hdepth
    rw [List.map_cons, List.nodup_cons] at hnodup
    have hfree : key ∉ filled := hfilled key List.mem_cons_self
    have hfirst := admits_pushes v (.record (some key) filled :: outer) (decide_eq_true hfree)
      (by rw [List.length_cons]; omega) hkeys.1
    obtain ⟨hrest, hafter⟩ := admits_fieldPushes rest (some key) (insert key filled) outer
      (fun k hk => by
        rw [Finset.mem_insert, not_or]
        exact ⟨fun heq => hnodup.1 (heq ▸ hk), hfilled k (List.mem_cons_of_mem _ hk)⟩)
      (by omega) hnodup.2 hkeys.2
    have hv : after (.record (some key) filled :: outer) v.pushes
        = .record (some key) (insert key filled) :: outer := (whole_pushes v).after_eq _
    have hselect : next (.record selected filled :: outer) (.field key false)
        = .record (some key) filled :: outer := rfl
    rw [fieldPushes, admits_append, after_append, after_cons, hselect, hv]
    refine ⟨⟨⟨decide_eq_true hfree, nofun, ?_⟩, hrest⟩, hafter⟩
    rw [hselect]
    exact hfirst
termination_by structural fields => fields

end

/-- Values outside of all containers. -/
theorem admits_outside {vs : List Value} (h : ∀ v ∈ vs, v.depth ≤ limit ∧ v.KeysDistinct) :
    Admits limit [] (itemPushes vs) := by
  induction vs with
  | nil => trivial
  | cons v vs ih =>
    obtain ⟨hdepth, hkeys⟩ := h v List.mem_cons_self
    have hv : after [] v.pushes = [] := (whole_pushes v).after_eq []
    rw [itemPushes, admits_append, hv]
    exact ⟨admits_pushes v [] rfl (by simpa using hdepth) hkeys,
      ih fun w hw => h w (List.mem_cons_of_mem _ hw)⟩

end Value

/-! ### Parts of known values -/

namespace Assembly

variable {us : List Value} {s : Assembly} {p : Push} {ps qs : List Push}

/-- A push is not checked, and what it begins is a part of the values `us` in this place. -/
structure Comes (us : List Value) (s : Assembly) (p : Push) : Prop where
  /-- A unit of time is known. -/
  unit : p.unitCode? = none
  /-- Fields may be new. -/
  unchecked : ∀ key, p ≠ .field key true
  /-- An element is a part of the values. -/
  part : ∀ k, p.elementClass? = some k → s.done ⊆ us ∧ ∃ v, v.class? = some k ∧ Inside us s.stack v

/-- Pushes one after another begin parts of the values `us`. -/
def AllCome (us : List Value) : Assembly → List Push → Prop
  | _, [] => True
  | s, p :: ps => s.Comes us p ∧ AllCome us (s.take p) ps

theorem allCome_append :
    AllCome us s (ps ++ qs) ↔ AllCome us s ps ∧ AllCome us (s.takeAll ps) qs := by
  induction ps generalizing s with
  | nil => simp [AllCome]
  | cons p ps ih => simp [AllCome, ih, and_assoc]

theorem comes_of_class {v : Value} (hdone : s.done ⊆ us) (hin : Inside us s.stack v)
    (hp : p.elementClass? = v.class?) (hb : p.Begins) : s.Comes us p where
  unit := Push.unitCode?_of_begins hb
  unchecked key := by
    rintro rfl
    rcases hb with hb | ⟨k, hk⟩
    · cases hb
    · cases hk
  part k hk := ⟨hdone, v, hp ▸ hk, hin⟩

/-- Pushes that begin no element, of a known unit and without a check. -/
theorem comes_of_none (hu : p.unitCode? = none) (hc : ∀ key, p ≠ .field key true)
    (hp : p.elementClass? = none) : s.Comes us p := by
  refine ⟨hu, hc, fun k hk => ?_⟩
  rw [hp] at hk
  cases hk

open Unfinished

mutual

/-- The pushes of a value begin parts of values of which it is a part. -/
theorem allCome_pushes (done : List Value) (stack : List Unfinished) (hdone : done ⊆ us) :
    ∀ v : Value, Inside us stack v → v.KeysDistinct → AllCome us ⟨done, stack⟩ v.pushes
  | .null => fun hin _ => ⟨comes_of_class hdone hin rfl (.inl rfl), trivial⟩
  | .bool _ | .int _ | .real _ | .complex _ | .datetime _ _ | .timedelta _ _ | .string _
  | .bytes _ => fun hin _ => ⟨comes_of_class hdone hin rfl (.inr ⟨_, rfl⟩), trivial⟩
  | .list items => by
    intro hin hkeys
    rw [Value.pushes, List.cons_append]
    refine ⟨comes_of_class hdone hin rfl (.inr ⟨_, rfl⟩), ?_⟩
    rw [take_open rfl]
    exact allCome_append.mpr ⟨allCome_itemPushes done stack hdone items [] hin hkeys,
      comes_of_none rfl nofun rfl, trivial⟩
  | .tuple items => by
    intro hin hkeys
    rw [Value.pushes, List.cons_append]
    refine ⟨comes_of_class hdone hin rfl (.inr ⟨_, rfl⟩), ?_⟩
    rw [take_open rfl]
    exact allCome_append.mpr ⟨allCome_slotPushes done stack hdone items [] none hin hkeys,
      comes_of_none rfl nofun rfl, trivial⟩
  | .record name fields => by
    intro hin hkeys
    rw [Value.pushes, List.cons_append]
    refine ⟨comes_of_class hdone hin rfl (.inr ⟨_, rfl⟩), ?_⟩
    rw [take_open rfl]
    exact allCome_append.mpr ⟨allCome_fieldPushes done stack hdone name fields [] none hin hkeys.1
      hkeys.2, comes_of_none rfl nofun rfl, trivial⟩
termination_by structural v => v

theorem allCome_itemPushes (done : List Value) (stack : List Unfinished) (hdone : done ⊆ us) :
    ∀ items before : List Value, Inside us stack (.list (before ++ items)) →
      Value.ItemsKeysDistinct items →
      AllCome us ⟨done, stack ++ [.list before]⟩ (Value.itemPushes items)
  | [], _ => fun _ _ => trivial
  | v :: items, before => by
    intro hin hkeys
    refine allCome_append.mpr ⟨allCome_pushes done _ hdone v ?_ hkeys.1, ?_⟩
    · exact hin.item_of (List.subset_append_left _ _)
        (List.mem_append_right _ List.mem_cons_self)
    · rw [takeAll_pushes, give_concat, Unfinished.take]
      exact allCome_itemPushes done stack hdone items (before ++ [v]) (by simpa using hin) hkeys.2
termination_by structural items => items

theorem allCome_slotPushes (done : List Value) (stack : List Unfinished) (hdone : done ⊆ us) :
    ∀ (items before : List Value) (slot : Option Nat),
      Inside us stack (.tuple (before ++ items)) → Value.ItemsKeysDistinct items →
      AllCome us
        ⟨done, stack ++ [.tuple (before.map some ++ List.replicate items.length none) slot]⟩
        (Value.slotPushes before.length items)
  | [], _, _ => fun _ _ => trivial
  | v :: items, before, slot => by
    intro hin hkeys
    rw [Value.slotPushes, List.cons_append]
    refine ⟨comes_of_none rfl nofun rfl, ?_⟩
    rw [take_select rfl, select]
    refine allCome_append.mpr ⟨allCome_pushes done _ hdone v ?_ hkeys.1, ?_⟩
    · refine hin.slot_of (by simp) ?_ (by simp)
      rw [List.length_cons, List.replicate_succ]
      simp
    · have hrest := allCome_slotPushes done stack hdone items (before ++ [v]) (some before.length)
        (by simpa using hin) hkeys.2
      rw [List.length_append, List.length_singleton] at hrest
      rw [takeAll_pushes, give_concat, Unfinished.take, List.length_cons, set_slot]
      exact hrest
termination_by structural items => items

theorem allCome_fieldPushes (done : List Value) (stack : List Unfinished) (hdone : done ⊆ us)
    (name : Option String) :
    ∀ (fields before : List (String × Value)) (key : Option String),
      Inside us stack (.record name (before ++ fields)) →
      ((before ++ fields).map Prod.fst).Nodup → Value.FieldsKeysDistinct fields →
      AllCome us ⟨done, stack ++ [.record name (filled before) key]⟩ (Value.fieldPushes fields)
  | [], _, _ => fun _ _ _ => trivial
  | (key, v) :: fields, before, selected => by
    intro hin hnodup hkeys
    rw [Value.fieldPushes, List.cons_append]
    refine ⟨comes_of_none rfl nofun rfl, ?_⟩
    rw [take_select rfl, select, addEntry_filled]
    refine allCome_append.mpr ⟨allCome_pushes done _ hdone v ?_ hkeys.1, ?_⟩
    · have hmem : (key, v) ∈ before ++ (key, v) :: fields :=
        List.mem_append_right _ List.mem_cons_self
      have hopen : ((filled before ++ [(key, none)]).map Prod.fst).Nodup := by
        rw [List.append_cons, List.map_append] at hnodup
        simpa [keys_filled] using hnodup.of_append_left
      refine hin.field_of ?_ (lookup_of_mem hnodup hmem)
      rw [lookup_of_mem hopen (List.mem_append_right _ (List.mem_singleton_self _))]
      rfl
    · rw [takeAll_pushes, give_concat, Unfinished.take, fillEntry_filled]
      exact allCome_fieldPushes done stack hdone name fields (before ++ [(key, v)]) (some key)
        (by simpa using hin) (by simpa using hnodup) hkeys.2
termination_by structural fields => fields

end

/-- Known values, outside of all containers. -/
theorem allCome_outside (vs before : List Value) (h : ∀ v ∈ vs, v.KeysDistinct) :
    AllCome (before ++ vs) ⟨before, []⟩ (Value.itemPushes vs) := by
  induction vs generalizing before with
  | nil => trivial
  | cons v vs ih =>
    refine allCome_append.mpr ⟨allCome_pushes before [] (List.subset_append_left _ _) v
      (.here (List.mem_append_right _ List.mem_cons_self)) (h v List.mem_cons_self), ?_⟩
    have hrest := ih (before ++ [v]) fun w hw => h w (List.mem_cons_of_mem _ hw)
    rw [List.append_assoc, List.singleton_append] at hrest
    rwa [takeAll_pushes, give]

end Assembly

/-! ### Builders -/

namespace Column

/-- A record knows every field that is not checked. -/
theorem knows_of_unchecked {p : Push} (c : Column) (h : ∀ key, p ≠ .field key true) :
    c.knows p = true := by
  cases c with
  | record =>
    cases p with
    | field key check =>
      cases check with
      | false => exact Bool.or_true _
      | true => exact absurd rfl (h key)
    | _ => rfl
  | _ => rfl

end Column

namespace Builder

variable {o : Options} {fresh : Prop} {b : Builder} {c : Column} {us : List Value}
  {levels : List Level} {s : Assembly} {ps : List Push}

/-- A builder takes pushes that the stack machine and the depth limit let through, if they begin
parts of values that a column holds. -/
theorem exists_pushAll (hc : Column.Fits b.options fresh c us []) (hcs : c.Sound)
    (h : b.Opens levels) (hf : b.isFinalized = false) (hholds : b.Holds True s)
    (hadmits : Level.Admits b.options.maxDepth levels ps) (hcome : s.AllCome us ps)
    (htext : ∀ p ∈ ps, p.IsText) : ∃ b', b.pushAll ps = .ok b' := by
  induction ps generalizing b levels s with
  | nil => exact ⟨b, rfl⟩
  | cons p ps ih =>
    obtain ⟨hallows, hdepth, hadmits⟩ := hadmits
    obtain ⟨hp, hcome⟩ := hcome
    have hroom : ¬ b.root.IsFull p := by
      intro hfull
      obtain ⟨k, _, _, _, hk, -⟩ := id hfull
      obtain ⟨hdone, v, hv, hin⟩ := hp.part k hk
      exact hholds.fits.not_isFull hholds.sound hdone hin hv hc hcs hk hfull
    obtain ⟨b₁, hpush⟩ := (h.exists_ok_iff hf hp.unit).mpr
      ⟨⟨hallows, hdepth, Column.knows_of_unchecked _ hp.unchecked⟩, hroom⟩
    have hopens := h.push hpush
    have hholds₁ := hholds.push (htext p List.mem_cons_self) hpush
    obtain ⟨-, root, -, rfl⟩ := (push_eq_ok_iff h.sound hf).mp hpush
    rw [pushAll_cons_ok hpush]
    exact ih hc hopens hf hholds₁ hadmits hcome fun q hq => htext q (List.mem_cons_of_mem _ hq)

/-- **A builder takes the values that another column holds**, if they are not too deep and have
no double keys. -/
theorem exists_extend (hc : Column.Fits o fresh c us []) (hcs : c.Sound)
    (h : ∀ v ∈ us, v.depth ≤ o.maxDepth ∧ v.KeysDistinct) :
    ∃ b', (new o).extend us = .ok b' :=
  exists_pushAll hc hcs (opens_new o) rfl (holds_new True o) (Value.admits_outside h)
    (Assembly.allCome_outside us [] fun v hv => (h v hv).2) (Value.isText_itemPushes us)

end Builder

end Columnar
