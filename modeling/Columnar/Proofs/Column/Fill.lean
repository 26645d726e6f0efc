import Columnar.Proofs.Column.Row

/-!
# Filling rows

The slots of an open row are columns beside one another.  A slot takes its element without
regard to the others, so what a row is in the end tells nothing of the order in which its
slots were filled; and a slot that is given a missing element is like one that is given none.

## Main definitions

* `Fill` — the choice of a slot, and the pushes of its element.
* `RowShape.Filled` — slots that were filled, each with its element.

## Main results

* `RowShape.Lawful.exists_filled`, `RowShape.Lawful.takesAll_fills` — filling slots one after
  another, and back.
* `RowShape.Lawful.takesAll_perm` — **slots may be filled in any order.**
* `RowShape.Lawful.takesAll_null` — **an omitted slot is a missing element.**
-/

namespace Columnar

open Column

/-- The choice of a slot, and the pushes of its element. -/
structure Fill where
  /-- The choice of the slot. -/
  selector : Push
  /-- The element. -/
  pushes : List Push

/-- All pushes of a fill. -/
def Fill.run (f : Fill) : List Push := f.selector :: f.pushes

theorem Fill.balanced_run {f : Fill} (hs : f.selector.selects?.isSome)
    (hw : Push.Whole f.pushes) : Push.Balanced f.run :=
  .append (.select hs) hw.balanced

theorem Fill.balanced_flatMap {fills : List Fill}
    (h : ∀ f ∈ fills, f.selector.selects?.isSome ∧ Push.Whole f.pushes) :
    Push.Balanced (fills.flatMap Fill.run) := by
  induction fills with
  | nil => exact .nil
  | cons f fills ih =>
    obtain ⟨hs, hw⟩ := h f List.mem_cons_self
    rw [List.flatMap_cons]
    exact .append (Fill.balanced_run hs hw) (ih fun g hg => h g (List.mem_cons_of_mem _ hg))

namespace RowShape

variable {κ : Type} [DecidableEq κ] {K : RowShape κ} {o : Options} {r : Row κ} {p : Push}
  {ps : List Push} {k : κ} {c e : Column} {d : Nat}

namespace Lawful

/-! ### Elements in the selected slot -/

/-- What begins an element begins it in the selected slot. -/
theorem exists_put (hK : K.Lawful o) (hr : r.Proper) (hsel : r.selected = some k) (hb : p.Begins)
    (h : Takes o (K.make r) p e) :
    ∃ c, e = K.make (r.put k c) ∧ (r.column k).length ≤ K.rows ∧ Takes o (r.column k) p c := by
  cases (hK.takes_iff hr).mp h with
  | select _ hp | add _ hp =>
    have hs := hK.selects hp
    rw [Push.selects?_of_begins hb] at hs
    cases hs
  | close =>
    have hc := hK.closes
    rw [Push.closes?_of_begins hb] at hc
    cases hc
  | slot hk hlen htakes =>
    rw [hsel] at hk
    cases hk
    exact ⟨_, rfl, hlen, htakes⟩

theorem takes_put (hK : K.Lawful o) (hr : r.Proper) (hsel : r.selected = some k)
    (hlen : (r.column k).length ≤ K.rows) (h : Takes o (r.column k) p c) :
    Takes o (K.make r) p (K.make (r.put k c)) :=
  (hK.takes_iff hr).mpr (.slot hsel hlen h)

theorem sound_slot (hK : K.Lawful o) (hr : r.Proper) (hs : (K.make r).Sound)
    (hsel : r.selected = some k) : (r.column k).Sound :=
  (hK.slots hs k (hr.mem k hsel)).1

/-- If the selected slot is not open, none is. -/
theorem inactive (hK : K.Lawful o) (hr : r.Proper) (hidle : r.Idle) (hs : (K.make r).Sound)
    (hk : k ∈ r.keys) : (r.column k).isActive = false := by
  by_contra ha
  rw [Bool.not_eq_false] at ha
  rw [hidle k (hK.selected hr hs k hk ha)] at ha
  cases ha

/-- A whole element that a row takes goes to the selected slot. -/
theorem exists_whole (hK : K.Lawful o) (hr : r.Proper) (hs : (K.make r).Sound)
    (hsel : r.selected = some k) (ha : (r.column k).isActive = false) (hw : Push.Whole ps)
    (h : TakesAll o d (K.make r) ps e) :
    ∃ c, e = K.make (r.put k c) ∧ (r.column k).length ≤ K.rows ∧
      TakesAll o d (r.column k) ps c := by
  have hslot := hK.sound_slot hr hs hsel
  obtain ⟨W, hW, hmake⟩ := hK.within hr hsel
  cases hw with
  | flat hb ho =>
    cases h with
    | cons hd hp hrest =>
      cases hrest
      obtain ⟨c, rfl, hlen, htakes⟩ := hK.exists_put hr hsel hb hp
      exact ⟨c, rfl, hlen, .single hd htakes⟩
  | container hp hi hq =>
    cases h with
    | cons hd hopen hrest =>
      -- once its container is open, the slot takes everything
      obtain ⟨c₁, rfl, hlen, htakes⟩ := hK.exists_put hr hsel (Push.begins_of_opens hp) hopen
      have hs₁ := hs.takes hopen
      rw [hmake] at hrest hs₁
      have ha₁ := (htakes.opens hslot ha hp hi).1
      obtain ⟨c, rfl, hrest'⟩ := (hW.takesAll_concat_iff hs₁ ha₁ hi).mp hrest
      exact ⟨c, (hmake c).symm, hlen, .cons hd htakes hrest'⟩

/-- The selected slot takes a whole element in the row. -/
theorem takesAll_whole (hK : K.Lawful o) (hr : r.Proper) (hs : (K.make r).Sound)
    (hsel : r.selected = some k) (ha : (r.column k).isActive = false)
    (hlen : (r.column k).length ≤ K.rows) (hw : Push.Whole ps)
    (h : TakesAll o d (r.column k) ps c) : TakesAll o d (K.make r) ps (K.make (r.put k c)) := by
  have hslot := hK.sound_slot hr hs hsel
  obtain ⟨W, hW, hmake⟩ := hK.within hr hsel
  cases hw with
  | flat hb ho =>
    cases h with
    | cons hd hp hrest =>
      cases hrest
      exact .single hd (hK.takes_put hr hsel hlen hp)
  | container hp hi hq =>
    cases h with
    | @cons _ _ c₁ _ _ _ hd hopen hrest =>
      have htakes := hK.takes_put hr hsel hlen hopen
      have hs₁ := hs.takes htakes
      have ha₁ := (hopen.opens hslot ha hp hi).1
      rw [hmake] at hs₁ htakes ⊢
      exact .cons hd htakes ((hW.takesAll_concat_iff hs₁ ha₁ hi).mpr ⟨c, rfl, hrest⟩)

end Lawful

/-! ### Slots one after another -/

/-- Slots were filled, each once and with an element that it takes; the others are as before.
A slot that the row does not have is added. -/
structure Filled (K : RowShape κ) (o : Options) (d : Nat) (r : Row κ) (fills : List Fill)
    (column : κ → Column) : Prop where
  /-- No slot is filled twice. -/
  distinct : (fills.map fun f => K.key? r.keys f.selector).Nodup
  /-- A slot that is filled. -/
  fill : ∀ f ∈ fills, ∃ k, K.key? r.keys f.selector = some k ∧
    (k ∈ r.keys ∨ K.mayAdd f.selector = true ∧ r.column k = .unknown K.rows) ∧
    (r.column k).isActive = false ∧ (r.column k).length ≤ K.rows ∧ Push.Whole f.pushes ∧
    TakesAll o d (r.column k) f.pushes (column k)
  /-- A slot that is not filled. -/
  rest : ∀ k, (∀ f ∈ fills, K.key? r.keys f.selector ≠ some k) → column k = r.column k

omit [DecidableEq κ] in
/-- It does not matter in which order the slots were filled. -/
theorem Filled.perm {fills fills' : List Fill} {column : κ → Column}
    (h : K.Filled o d r fills column) (hperm : fills.Perm fills') :
    K.Filled o d r fills' column := by
  refine ⟨(hperm.map _).nodup_iff.mp h.distinct, ?_, ?_⟩
  · intro f hf
    exact h.fill f (hperm.mem_iff.mpr hf)
  · intro k hk
    exact h.rest k fun f hf => hk f (hperm.mem_iff.mp hf)

/-- The slots after one of a key is selected that may be new. -/
def withKey (keys : List κ) (k : κ) : List κ := if k ∈ keys then keys else keys ++ [k]

/-- The slots after several are selected. -/
def keysAfter (K : RowShape κ) (keys : List κ) (fills : List Fill) : List κ :=
  (fills.filterMap fun f => K.key? keys f.selector).foldl withKey keys

namespace Lawful

/-- Choosing a slot for an element. -/
theorem takes_choose (hK : K.Lawful o) (hr : r.Proper) (hidle : r.Idle)
    (hp : K.key? r.keys p = some k)
    (hk : k ∈ r.keys ∨ K.mayAdd p = true ∧ r.column k = .unknown K.rows)
    (hlen : (r.column k).length ≤ K.rows) :
    (Row.mk (withKey r.keys k) r.column (some k)).Proper ∧
      Takes o (K.make r) p (K.make ⟨withKey r.keys k, r.column, some k⟩) := by
  by_cases hmem : k ∈ r.keys
  · rw [withKey, if_pos hmem]
    exact ⟨hr.select hmem, (hK.takes_iff hr).mpr (.select hidle hp hmem hlen)⟩
  · obtain ⟨hadd, hunknown⟩ := hk.resolve_left hmem
    have heq : r.add k (.unknown K.rows) = ⟨r.keys ++ [k], r.column, some k⟩ := by
      rw [Row.add, ← hunknown, Function.update_eq_self]
    rw [withKey, if_neg hmem, ← heq]
    exact ⟨hr.add hmem _, (hK.takes_iff hr).mpr (.add hidle hp hmem hadd)⟩

/-- What selects a slot of a row none of whose slots is open selects it and no more. -/
theorem eq_select (hK : K.Lawful o) (hr : r.Proper) (hidle : r.Idle)
    (hp : K.key? r.keys p = some k) (hk : k ∈ r.keys) (h : Takes o (K.make r) p e) :
    e = K.make (r.select k) ∧ (r.column k).length ≤ K.rows := by
  have hsel := hK.selects hp
  cases (hK.takes_iff hr).mp h with
  | select _ hp' _ hlen =>
    rw [hp] at hp'
    cases hp'
    exact ⟨rfl, hlen⟩
  | add _ hp' hk' =>
    rw [hp] at hp'
    cases hp'
    exact absurd hk hk'
  | close =>
    have hc := hK.closes
    rw [Push.closes?_of_selects hsel] at hc
    cases hc
  | slot hk' _ htakes =>
    rw [Push.selects?_of_begins (htakes.begins (hidle _ hk'))] at hsel
    cases hsel

/-- What closes a container closes a row none of whose slots is open. -/
theorem eq_closed (hK : K.Lawful o) (hr : r.Proper) (hidle : r.Idle) (hp : p.closes?.isSome)
    (h : Takes o (K.make r) p e) : p = K.closer ∧ e = K.closed r.keys r.column := by
  cases (hK.takes_iff hr).mp h with
  | select _ hp' | add _ hp' =>
    rw [Push.closes?_of_selects (hK.selects hp')] at hp
    cases hp
  | close => exact ⟨rfl, rfl⟩
  | slot hk _ htakes =>
    rw [Push.closes?_of_begins (htakes.begins (hidle _ hk))] at hp
    cases hp

theorem takes_closed (hK : K.Lawful o) (hr : r.Proper) (hidle : r.Idle) :
    Takes o (K.make r) K.closer (K.closed r.keys r.column) :=
  (hK.takes_iff hr).mpr (.close hidle)

theorem takesAll_close (hK : K.Lawful o) {q : Push} (hr : r.Proper) (hidle : r.Idle)
    (hq : q.closes?.isSome) :
    TakesAll o d (K.make r) [q] e ↔ q = K.closer ∧ e = K.closed r.keys r.column := by
  constructor
  · intro h
    cases h with
    | cons _ hclose hnil =>
      cases hnil
      exact hK.eq_closed hr hidle hq hclose
  · rintro ⟨rfl, rfl⟩
    refine .single ?_ (hK.takes_closed hr hidle)
    rw [Push.opens?_of_closes hq]
    nofun

/-- A slot that is selected does not change the names of the others. -/
theorem key?_withKey (hK : K.Lawful o) {keys : List κ} {k' : κ} (hp : K.key? keys p = some k')
    (k : κ) : K.key? (withKey keys k) p = some k' := by
  unfold withKey
  split
  · exact hp
  · exact hK.key?_append hp [k]

/-- When the first slot is filled, the others remain to be filled. -/
theorem filled_tail (hK : K.Lawful o) {f : Fill} {fills : List Fill} {column : κ → Column}
    (h : K.Filled o d r (f :: fills) column) (hk : K.key? r.keys f.selector = some k) :
    K.Filled o d ((Row.mk (withKey r.keys k) r.column (some k)).put k (column k)) fills column ∧
      K.keysAfter ((Row.mk (withKey r.keys k) r.column (some k)).put k (column k)).keys fills
        = K.keysAfter r.keys (f :: fills) := by
  have hnames : ∀ g ∈ fills, K.key? (withKey r.keys k) g.selector = K.key? r.keys g.selector := by
    intro g hg
    obtain ⟨k', hkey', -⟩ := h.fill g (List.mem_cons_of_mem _ hg)
    rw [hkey', hK.key?_withKey hkey']
  obtain ⟨hnew, hdistinct⟩ := List.nodup_cons.mp h.distinct
  -- none of the other slots is the one that has just been filled
  have hne : ∀ g ∈ fills, K.key? r.keys g.selector ≠ some k := by
    intro g hg heq
    exact hnew (List.mem_map.mpr ⟨g, hg, heq.trans hk.symm⟩)
  refine ⟨⟨?_, ?_, ?_⟩, ?_⟩
  · change (fills.map fun g => K.key? (withKey r.keys k) g.selector).Nodup
    rw [List.map_congr_left hnames]
    exact hdistinct
  · intro g hg
    obtain ⟨k', hkey', hk', ha', hlen', hw', htakes'⟩ := h.fill g (List.mem_cons_of_mem _ hg)
    have hne' : k' ≠ k := by
      rintro rfl
      exact hne g hg hkey'
    refine ⟨k', (hnames g hg).trans hkey', ?_⟩
    have hcolumn : Function.update r.column k (column k) k' = r.column k' :=
      Function.update_of_ne hne' _ _
    simp only [Row.put, hcolumn]
    refine ⟨hk'.imp_left fun hmem => ?_, ha', hlen', hw', htakes'⟩
    unfold withKey
    split
    · exact hmem
    · exact List.mem_append_left _ hmem
  · intro k' hk'
    change _ = Function.update r.column k (column k) k'
    by_cases hkk : k' = k
    · rw [hkk, Function.update_self]
    · rw [Function.update_of_ne hkk]
      refine h.rest k' fun g hg => ?_
      rcases List.mem_cons.mp hg with rfl | hg
      · rw [hk]
        exact fun heq => hkk (Option.some.inj heq).symm
      · have hg' : K.key? (withKey r.keys k) g.selector ≠ some k' := hk' g hg
        rwa [hnames g hg] at hg'
  · have hcons : (f :: fills).filterMap (fun g => K.key? r.keys g.selector)
        = k :: fills.filterMap fun g => K.key? r.keys g.selector := List.filterMap_cons_some hk
    rw [keysAfter, keysAfter, hcons, List.foldl_cons, ← List.filterMap_congr hnames]
    rfl

/-- A slot is filled before the others are. -/
theorem filled_cons (hK : K.Lawful o) {f : Fill} {fills : List Fill} {column : κ → Column}
    (hs : (K.make (r.select k)).Sound) (hkey : K.key? r.keys f.selector = some k)
    (hk : k ∈ r.keys) (ha : (r.column k).isActive = false)
    (hlen : (r.column k).length ≤ K.rows) (hw : Push.Whole f.pushes)
    (htakes : TakesAll o d (r.column k) f.pushes c)
    (h : K.Filled o d ((r.select k).put k c) fills column) :
    K.Filled o d r (f :: fills) column := by
  have hcolumn : ∀ k', k' ≠ k → ((r.select k).put k c).column k' = r.column k' :=
    fun k' hne => Function.update_of_ne hne _ _
  have hself : ((r.select k).put k c).column k = c := Function.update_self _ _ _
  -- the slot has its element for this row, so that it is not filled once more
  have hne : ∀ g ∈ fills, K.key? r.keys g.selector ≠ some k := by
    intro g hg heq
    obtain ⟨k', hkey', -, -, hlen', -⟩ := h.fill g hg
    obtain rfl : k = k' := Option.some.inj (heq.symm.trans hkey')
    obtain ⟨hslot, hrows⟩ := hK.slots hs k hk
    rw [hself, (htakes.length_whole hslot ha hw).2] at hlen'
    exact Nat.not_succ_le_self _ (Nat.le_trans hlen' hrows)
  refine ⟨List.nodup_cons.mpr ⟨?_, h.distinct⟩, ?_, ?_⟩
  · intro hmem
    obtain ⟨g, hg, heq⟩ := List.mem_map.mp hmem
    exact hne g hg (heq.trans hkey)
  · intro g hg
    rcases List.mem_cons.mp hg with rfl | hg
    · refine ⟨k, hkey, .inl hk, ha, hlen, hw, ?_⟩
      rwa [h.rest k hne, hself]
    · obtain ⟨k', hkey', hrest⟩ := h.fill g hg
      have hne' : k' ≠ k := by
        rintro rfl
        exact hne g hg hkey'
      rw [hcolumn k' hne'] at hrest
      exact ⟨k', hkey', hrest⟩
  · intro k' hk'
    have hne' : k' ≠ k := by
      rintro rfl
      exact hk' f List.mem_cons_self hkey
    rw [h.rest k' fun g hg => hk' g (List.mem_cons_of_mem _ hg), hcolumn k' hne']

/-- The slots take their elements one after another. -/
theorem takesAll_fills (hK : K.Lawful o) {fills : List Fill} {column : κ → Column}
    (hr : r.Proper) (hidle : r.Idle) (hs : (K.make r).Sound)
    (h : K.Filled o d r fills column) :
    ∃ s, (Row.mk (K.keysAfter r.keys fills) column s).Proper ∧
      (Row.mk (K.keysAfter r.keys fills) column s).Idle ∧
      TakesAll o d (K.make r) (fills.flatMap Fill.run)
        (K.make ⟨K.keysAfter r.keys fills, column, s⟩) := by
  induction fills generalizing r with
  | nil =>
    have hcolumn : column = r.column := funext fun k => h.rest k (List.forall_mem_nil _)
    subst hcolumn
    exact ⟨r.selected, hr, hidle, .nil _ _⟩
  | cons f rest ih =>
    obtain ⟨k, hkey, hk, ha, hlen, hw, htakes⟩ := h.fill f List.mem_cons_self
    have hsel := hK.selects hkey
    obtain ⟨hr₁, hchoose⟩ := hK.takes_choose hr hidle hkey hk hlen
    have hs₁ := hs.takes hchoose
    have hslot := hK.sound_slot hr₁ hs₁ rfl
    have hwhole := hK.takesAll_whole hr₁ hs₁ rfl ha hlen hw htakes
    obtain ⟨hfilled, hkeys⟩ := hK.filled_tail h hkey
    have hidle₁ : ((Row.mk (withKey r.keys k) r.column (some k)).put k (column k)).Idle := by
      rintro k' ⟨⟩
      simp only [Row.put, Function.update_self]
      exact (htakes.length_whole hslot ha hw).1
    have hrest := ih (hr₁.put k (column k)) hidle₁ (hs₁.takesAll hwhole) hfilled
    rw [hkeys] at hrest
    obtain ⟨s, hproper, hidle', hrest⟩ := hrest
    refine ⟨s, hproper, hidle', ?_⟩
    have hrun : TakesAll o d (K.make r) f.run
        (K.make ((Row.mk (withKey r.keys k) r.column (some k)).put k (column k))) := by
      refine .cons (by rw [Push.opens?_of_selects hsel]; rintro ⟨⟩) hchoose ?_
      rwa [Push.depthAfter_flat (Push.opens?_of_selects hsel) (Push.closes?_of_selects hsel)]
    rw [List.flatMap_cons]
    refine hrun.append ?_
    rwa [(Fill.balanced_run hsel hw).depthsAfter]

/-- Where slots of a row took elements one after another, they were filled. -/
theorem exists_filled (hK : K.Lawful o) {fills : List Fill} (hr : r.Proper) (hidle : r.Idle)
    (hs : (K.make r).Sound)
    (hfills : ∀ f ∈ fills, (∃ k ∈ r.keys, K.key? r.keys f.selector = some k) ∧
      Push.Whole f.pushes)
    (h : TakesAll o d (K.make r) (fills.flatMap Fill.run) e) :
    ∃ column s, e = K.make ⟨r.keys, column, s⟩ ∧ (Row.mk r.keys column s).Proper ∧
      (Row.mk r.keys column s).Idle ∧ K.Filled o d r fills column := by
  induction fills generalizing r with
  | nil =>
    cases h
    exact ⟨r.column, r.selected, rfl, hr, hidle, List.nodup_nil, List.forall_mem_nil _,
      fun k _ => rfl⟩
  | cons f fills ih =>
    obtain ⟨⟨k, hk, hkey⟩, hw⟩ := hfills f List.mem_cons_self
    have hsel := hK.selects hkey
    rw [List.flatMap_cons] at h
    obtain ⟨e₁, hfirst, hrest⟩ := takesAll_append.mp h
    rw [(Fill.balanced_run hsel hw).depthsAfter] at hrest
    cases hfirst with
    | cons _ hchoose hpushes =>
      rw [Push.depthAfter_flat (Push.opens?_of_selects hsel) (Push.closes?_of_selects hsel)]
        at hpushes
      obtain ⟨rfl, hlen⟩ := hK.eq_select hr hidle hkey hk hchoose
      have hr₁ := hr.select hk
      have hs₁ := hs.takes hchoose
      have ha := hK.inactive hr hidle hs hk
      obtain ⟨c, rfl, -, htakes⟩ := hK.exists_whole hr₁ hs₁ rfl ha hw hpushes
      have hclosed := (htakes.length_whole (hK.sound_slot hr₁ hs₁ rfl) ha hw).1
      have hidle₁ : ((r.select k).put k c).Idle := by
        rintro k' ⟨⟩
        simp only [Row.put, Function.update_self]
        exact hclosed
      obtain ⟨column, s, rfl, hproper, hidle', hfilled⟩ := ih (hr₁.put k c) hidle₁
        (hs₁.takesAll hpushes) (fun g hg => hfills g (List.mem_cons_of_mem _ hg)) hrest
      refine ⟨column, s, rfl, hproper, hidle', ?_⟩
      exact hK.filled_cons hs₁ hkey hk ha hlen hw htakes hfilled

/-- If no slot is new, there are as many as before. -/
theorem keysAfter_of_mem {keys : List κ} {fills : List Fill}
    (h : ∀ f ∈ fills, ∃ k ∈ keys, K.key? keys f.selector = some k) :
    K.keysAfter keys fills = keys := by
  have hmem : ∀ k ∈ fills.filterMap fun f => K.key? keys f.selector, k ∈ keys := by
    intro k hk
    obtain ⟨f, hf, hkey⟩ := List.mem_filterMap.mp hk
    obtain ⟨k', hk', hkey'⟩ := h f hf
    rwa [Option.some.inj (hkey.symm.trans hkey')]
  rw [keysAfter]
  generalize fills.filterMap (fun f => K.key? keys f.selector) = new at hmem
  induction new with
  | nil => rfl
  | cons k new ih =>
    rw [List.foldl_cons, withKey, if_pos (hmem k List.mem_cons_self)]
    exact ih fun k' hk' => hmem k' (List.mem_cons_of_mem _ hk')

/-- What closes a row or selects in it does not ask which slot was selected before. -/
theorem takesAll_next (hK : K.Lawful o) {keys : List κ} {column : κ → Column} {s s' : Option κ}
    {q : Push} (hr : (Row.mk keys column s).Proper) (hidle : (Row.mk keys column s).Idle)
    (hr' : (Row.mk keys column s').Proper) (hidle' : (Row.mk keys column s').Idle)
    (hq : ¬ q.Begins) (h : TakesAll o d (K.make ⟨keys, column, s⟩) [q] e) :
    TakesAll o d (K.make ⟨keys, column, s'⟩) [q] e := by
  cases h with
  | cons hd hp hnil =>
    cases hnil
    refine .single hd ((hK.takes_iff hr').mpr ?_)
    cases (hK.takes_iff hr).mp hp with
    | select _ hkey hk hlen => exact .select hidle' hkey hk hlen
    | add _ hkey hk hadd => exact .add hidle' hkey hk hadd
    | close => exact .close hidle'
    | slot hk _ htakes => exact absurd (htakes.begins (hidle _ hk)) hq

/-- **Slots may be filled in any order** before the row is closed or another slot is selected. -/
theorem takesAll_perm (hK : K.Lawful o) {fills fills' : List Fill} {q : Push} (hr : r.Proper)
    (hidle : r.Idle) (hs : (K.make r).Sound) (hperm : fills.Perm fills')
    (hfills : ∀ f ∈ fills, (∃ k ∈ r.keys, K.key? r.keys f.selector = some k) ∧
      Push.Whole f.pushes)
    (hq : ¬ q.Begins) (h : TakesAll o d (K.make r) (fills.flatMap Fill.run ++ [q]) e) :
    TakesAll o d (K.make r) (fills'.flatMap Fill.run ++ [q]) e := by
  obtain ⟨e₁, hrun, hlast⟩ := takesAll_append.mp h
  obtain ⟨column, s, rfl, hr₁, hidle₁, hfilled⟩ := hK.exists_filled hr hidle hs hfills hrun
  have hfills' : ∀ f ∈ fills', (∃ k ∈ r.keys, K.key? r.keys f.selector = some k) ∧
      Push.Whole f.pushes := fun f hf => hfills f (hperm.mem_iff.mpr hf)
  obtain ⟨s', hr₂, hidle₂, hrun'⟩ := hK.takesAll_fills hr hidle hs (hfilled.perm hperm)
  rw [keysAfter_of_mem fun f hf => (hfills' f hf).1] at hr₂ hidle₂ hrun'
  have hbalanced : ∀ {gs : List Fill}, (∀ f ∈ gs, (∃ k ∈ r.keys,
      K.key? r.keys f.selector = some k) ∧ Push.Whole f.pushes) →
        Push.Balanced (gs.flatMap Fill.run) := by
    intro gs hgs
    refine Fill.balanced_flatMap fun f hf => ?_
    obtain ⟨⟨k, -, hkey⟩, hw⟩ := hgs f hf
    exact ⟨hK.selects hkey, hw⟩
  refine hrun'.append ?_
  rw [(hbalanced hfills).depthsAfter] at hlast
  rw [(hbalanced hfills').depthsAfter]
  exact hK.takesAll_next hr₁ hidle₁ hr₂ hidle₂ hq hlast

/-- **An omitted slot is a missing element.** -/
theorem takesAll_null (hK : K.Lawful o) {q : Push} (hr : r.Proper) (hidle : r.Idle)
    (hs : (K.make r).Sound) (hkey : K.key? r.keys p = some k) (hk : k ∈ r.keys)
    (hlen : (r.column k).length ≤ K.rows) (hq : q.closes?.isSome) :
    TakesAll o d (K.make r) [p, .null, q] e ↔ TakesAll o d (K.make r) [q] e := by
  have hsel := hK.selects hkey
  have ha := hK.inactive hr hidle hs hk
  have hr₁ := hr.select hk
  have hr₂ := hr₁.put k (r.column k).appendNull
  have hidle₂ : ((r.select k).put k (r.column k).appendNull).Idle := by
    rintro k' ⟨⟩
    simp only [Row.put, Function.update_self]
    exact (isActive_appendNull _).trans ha
  have hchoose : Takes o (K.make r) p (K.make (r.select k)) :=
    (hK.takes_iff hr).mpr (.select hidle hkey hk hlen)
  have hnull : Takes o (K.make (r.select k)) .null
      (K.make ((r.select k).put k (r.column k).appendNull)) :=
    hK.takes_put hr₁ rfl hlen (takes_null ha)
  -- when the row is closed, the missing element is there already, or is added
  have hclosed : K.closed r.keys ((r.select k).put k (r.column k).appendNull).column
      = K.closed r.keys r.column := by
    refine hK.closed_congr fun k' _ => ?_
    by_cases hkk : k' = k
    · subst hkk
      have hrows := Nat.le_antisymm hlen (hK.slots hs k' hk).2
      have hself : ((r.select k').put k' (r.column k').appendNull).column k'
          = (r.column k').appendNull := Function.update_self _ _ _
      rw [hself, fillSlot, fillSlot, if_pos hrows, if_neg]
      rw [length_appendNull ha, hrows]
      exact Nat.succ_ne_self _
    · exact congrArg _ (Function.update_of_ne hkk _ _)
  have hrun : ∀ {ps : List Push}, TakesAll o d (K.make r) (p :: .null :: ps) e ↔
      TakesAll o d (K.make ((r.select k).put k (r.column k).appendNull)) ps e := by
    intro ps
    constructor
    · intro h
      cases h with
      | cons _ hp hrest =>
        obtain rfl := hchoose.unique hp
        cases hrest with
        | cons _ hn hps =>
          obtain rfl := hnull.unique hn
          rwa [Push.depthAfter_flat (Push.opens?_of_selects hsel) (Push.closes?_of_selects hsel)]
            at hps
    · intro h
      have hopens : p.opens?.isSome → d < o.maxDepth := by
        rw [Push.opens?_of_selects hsel]
        rintro ⟨⟩
      refine .cons hopens hchoose (.cons (by rintro ⟨⟩) hnull ?_)
      rwa [Push.depthAfter_flat (Push.opens?_of_selects hsel) (Push.closes?_of_selects hsel)]
  rw [hrun, hK.takesAll_close hr₂ hidle₂ hq, hK.takesAll_close hr hidle hq]
  exact and_congr_right fun _ => by rw [← hclosed]; rfl

end Lawful

end RowShape

end Columnar
