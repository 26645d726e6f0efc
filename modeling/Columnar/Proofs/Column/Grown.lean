import Columnar.Proofs.Column.Begun
import Columnar.Proofs.Column.Chosen
import Columnar.Proofs.Protocol

/-!
# How columns grow

Pushes assemble values, and a column that takes them grows.  What it has grown by is told
without regard to the order of the pushes: it took the complete values, one after another and
each from its first part to its last, and what it has open was opened after them and has grown
in the same way, slot by slot.

## Main definitions

* `RowShape.Starts`, `RowShape.Chooses` — a row that has just been opened, and one whose slots
  were chosen.
* `Column.Grown` — a column has grown by complete values and by what is under way.

## Main results

* `Column.Grown.takes`, `Column.Grown.takesAll` — **a column grows by what the pushes assemble.**
-/

namespace Columnar

open Column

namespace RowShape

variable {κ : Type} [DecidableEq κ]

/-- A row that has just been opened: nothing is selected, and no slot has an element for it. -/
structure Starts (K : RowShape κ) (M : RowMeaning κ) (r : Row κ) : Prop where
  /-- No slot stands twice. -/
  nodup : r.keys.Nodup
  /-- Nothing is selected. -/
  selected : r.selected = none
  /-- The slots have an element for each complete row. -/
  slot : ∀ k, (r.column k).Sound ∧ (r.column k).isActive = false ∧ (r.column k).length = K.rows
  /-- A slot that comes later is missing in these. -/
  later : ∀ k, k ∉ r.keys → r.column k = .unknown K.rows
  /-- Slots that are chosen from the start are there. -/
  start : M.start.Nodup ∧ ∀ k ∈ M.start, k ∈ r.keys
  /-- The row can have the meaning. -/
  apt : M.Apt r.keys M.start

/-- A row some of whose slots were chosen after it was opened, and some of these given a
value. -/
structure Chooses (M : RowMeaning κ) (r₀ r : Row κ) (chosen : List κ) (val : κ → Option Value) :
    Prop where
  /-- The row is one. -/
  proper : r.Proper
  /-- A slot that was not there was added when it was chosen. -/
  keys_eq : r.keys = chosen.foldl withKey r₀.keys
  /-- No slot is chosen twice. -/
  nodup : chosen.Nodup
  /-- The selected slot is chosen. -/
  mem : ∀ k, r.selected = some k → k ∈ chosen
  /-- Only a chosen slot has a value. -/
  val_eq : ∀ k, k ∉ chosen → val k = none
  /-- The row can have the meaning. -/
  apt : M.Apt r.keys chosen

variable {K : RowShape κ} {M : RowMeaning κ} {r₀ r : Row κ} {chosen : List κ}
  {val : κ → Option Value} {k : κ}

omit [DecidableEq κ] in
theorem Starts.proper (h : K.Starts M r) : r.Proper :=
  ⟨h.nodup, by rw [h.selected]; nofun⟩

omit [DecidableEq κ] in
theorem Starts.idle (h : K.Starts M r) : r.Idle := by
  rw [Row.Idle, h.selected]
  rintro k ⟨⟩

theorem Starts.chooses (h : K.Starts M r) : Chooses M r r M.start fun _ => none := by
  refine ⟨h.proper, ?_, h.start.1, by rw [h.selected]; nofun, fun _ _ => rfl, h.apt⟩
  have hmem := h.start.2
  generalize M.start = start at hmem
  induction start with
  | nil => rfl
  | cons k start ih =>
    rw [List.foldl_cons, withKey, if_pos (hmem k List.mem_cons_self)]
    exact ih fun k' hk' => hmem k' (List.mem_cons_of_mem _ hk')

/-- Another slot is chosen. -/
theorem Chooses.select (h : Chooses M r₀ r chosen val) (hapt : M.Apt (withKey r.keys k)
    (withKey chosen k)) :
    Chooses M r₀ ⟨withKey r.keys k, r.column, some k⟩ (withKey chosen k) val := by
  refine ⟨⟨nodup_withKey h.proper.nodup k, ?_⟩, ?_, nodup_withKey h.nodup k, ?_, ?_, hapt⟩
  · rintro _ ⟨⟩
    exact mem_withKey.mpr (.inr rfl)
  · rw [← withKey_foldl, ← h.keys_eq]
  · rintro _ ⟨⟩
    exact mem_withKey.mpr (.inr rfl)
  · intro k' hk'
    exact h.val_eq k' fun hmem => hk' (mem_withKey.mpr (.inl hmem))

/-- The selected slot takes a push. -/
theorem Chooses.put (h : Chooses M r₀ r chosen val) (hk : r.selected = some k) (c : Column)
    (v? : Option Value) : Chooses M r₀ (r.put k c) chosen (Function.update val k v?) := by
  refine ⟨h.proper.put k c, h.keys_eq, h.nodup, h.mem, ?_, h.apt⟩
  intro k' hk'
  rw [Function.update_of_ne]
  · exact h.val_eq k' hk'
  · rintro rfl
    exact hk' (h.mem k' hk)

end RowShape

namespace Column

variable {o : Options} {d : Nat} {c c₀ c₁ c' : Column} {p : Push} {vs : List Value}
  {stack : List Unfinished}

/-- A container was opened after complete values, within a tree. -/
structure OpenedAfter (o : Options) (d : Nat) (c₀ c₁ : Column) (vs : List Value) (p : Push)
    (W : Column → Column) (x : Column) : Prop where
  /-- The complete values. -/
  done : TakesAll o d c₀ (Value.itemPushes vs) c₁
  /-- The depth limit allows one container more. -/
  depth : d < o.maxDepth
  /-- The tree around the container. -/
  within : Within W
  /-- The push that opens it. -/
  takes : Takes o c₁ p (W x)

/-- A column has grown by complete values and by containers that are under way, inside of a
number of open containers. -/
inductive Grown (o : Options) : Nat → Column → List Value → List Unfinished → Column → Prop
  /-- Nothing is under way. -/
  | done {d : Nat} {c₀ c : Column} {vs : List Value}
      (h : TakesAll o d c₀ (Value.itemPushes vs) c) : Grown o d c₀ vs [] c
  /-- A list is under way. -/
  | list {d : Nat} {c₀ c₁ : Column} {vs : List Value} {W : Column → Column}
      {offsets : Array Nat} {content₀ content : Column} {items : List Value}
      {inner : List Unfinished}
      (hopen : OpenedAfter o d c₀ c₁ vs .beginList W (.list offsets content₀ true))
      (hidle : content₀.isActive = false) (h : Grown o (d + 1) content₀ items inner content) :
      Grown o d c₀ vs (.list items :: inner) (W (.list offsets content true))
  /-- A tuple or a record is under way. -/
  | row {d : Nat} {c₀ c₁ : Column} {vs : List Value} {W : Column → Column} {κ : Type}
      [DecidableEq κ] {K : RowShape κ} {M : RowMeaning κ} {r₀ r : Row κ} {chosen : List κ}
      {val : κ → Option Value} {inner : List Unfinished}
      (hopen : OpenedAfter o d c₀ c₁ vs M.opener W (K.make r₀)) (hK : K.Lawful o)
      (hM : K.Means M) (hstart : K.Starts M r₀) (hrow : RowShape.Chooses M r₀ r chosen val)
      (hinner : r.selected = none → inner = [])
      (h : ∀ k, Grown o (d + 1) (r₀.column k) (val k).toList
        (if r.selected = some k then inner else []) (r.column k)) :
      Grown o d c₀ vs (M.unfinished chosen val r.selected :: inner) (W (K.make r))

/-! ### What has grown -/

/-- Whole values, one after another. -/
theorem TakesAll.length_items (hs : c₀.Sound) (ha : c₀.isActive = false)
    (h : TakesAll o d c₀ (Value.itemPushes vs) c) :
    c.isActive = false ∧ c.length = c₀.length + vs.length := by
  induction vs generalizing c₀ with
  | nil =>
    cases h
    exact ⟨ha, rfl⟩
  | cons v vs ih =>
    obtain ⟨c₁, hv, hvs⟩ := takesAll_append.mp h
    have hwhole := v.whole_pushes
    rw [hwhole.balanced.depthsAfter] at hvs
    obtain ⟨ha₁, hlen₁⟩ := hv.length_whole hs ha hwhole
    obtain ⟨ha', hlen'⟩ := ih (hs.takesAll hv) ha₁ hvs
    refine ⟨ha', ?_⟩
    rw [hlen', hlen₁, List.length_cons]
    omega

theorem TakesAll.concat_item {v : Value} (h₁ : TakesAll o d c₀ (Value.itemPushes vs) c₁)
    (h : TakesAll o d c₁ v.pushes c) : TakesAll o d c₀ (Value.itemPushes (vs ++ [v])) c := by
  have happend : Value.itemPushes (vs ++ [v]) = Value.itemPushes vs ++ v.pushes := by
    clear h₁
    induction vs with
    | nil => exact List.append_nil _
    | cons u us ih =>
      rw [List.cons_append, Value.itemPushes, ih, Value.itemPushes, List.append_assoc]
  rw [happend]
  refine h₁.append ?_
  rwa [(Value.balanced_itemPushes vs).depthsAfter]

namespace Grown

theorem isActive (hs : c₀.Sound) (ha : c₀.isActive = false) (h : Grown o d c₀ vs stack c) :
    c.isActive = true ↔ stack ≠ [] := by
  cases h with
  | done h =>
    rw [(h.length_items hs ha).1]
    simp
  | list hopen => exact iff_of_true (hopen.within.isActive rfl) (List.cons_ne_nil _ _)
  | row hopen hK => exact iff_of_true (hopen.within.isActive (hK.isActive _)) (List.cons_ne_nil _ _)

theorem stack_eq_nil (hs : c₀.Sound) (ha : c₀.isActive = false) (h : Grown o d c₀ vs stack c)
    (hc : c.isActive = false) : stack = [] := by
  by_contra hne
  rw [(h.isActive hs ha).mpr hne] at hc
  cases hc

/-- What is under way does not count. -/
theorem length (hs : c₀.Sound) (ha : c₀.isActive = false) (h : Grown o d c₀ vs stack c) :
    c.length = c₀.length + vs.length := by
  -- the length is that from when the container was opened
  have hopened : ∀ {W : Column → Column} {p : Push} {c₁ x x' : Column},
      OpenedAfter o d c₀ c₁ vs p W x → x.isActive = true → x'.isActive = true →
        x.length = x'.length → (W x').length = c₀.length + vs.length := by
    intro W p c₁ x x' hopen hx hx' hlen
    have hadd := hopen.takes.length_add (hs.takesAll hopen.done)
    rw [hopen.within.isActive hx, Bool.toNat_true] at hadd
    rw [← hopen.within.length_eq hx hx' hlen, ← (hopen.done.length_items hs ha).2]
    omega
  cases h with
  | done h => exact (h.length_items hs ha).2
  | list hopen => exact hopened hopen rfl rfl rfl
  | row hopen hK =>
    exact hopened hopen (hK.isActive _) (hK.isActive _) ((hK.length _).trans (hK.length _).symm)

theorem eq_of_nil (h : Grown o d c₀ [] [] c) : c = c₀ := by
  cases h with
  | done h =>
    cases h
    rfl

/-- A slot with its value for the row that ends, or a missing one. -/
theorem fillSlot {n : Nat} {v? : Option Value} (hs : c₀.Sound) (ha : c₀.isActive = false)
    (hn : c₀.length = n) (h : Grown o d c₀ v?.toList [] c) :
    TakesAll o d c₀ (v?.getD .null).pushes (Column.fillSlot n c) := by
  have hlen := h.length hs ha
  cases h with
  | done h =>
    cases v? with
    | none =>
      cases h
      rw [Column.fillSlot, if_pos hn]
      exact .single (by rintro ⟨⟩) (takes_null ha)
    | some v =>
      rw [Column.fillSlot, if_neg (by simp at hlen; omega)]
      rwa [Option.toList_some, Value.itemPushes, Value.itemPushes, List.append_nil] at h

end Grown

/-! ### Closing rows -/

section Close

open RowShape

variable {κ : Type} [DecidableEq κ] {K : RowShape κ} {M : RowMeaning κ} {r₀ r : Row κ}
  {chosen : List κ} {val : κ → Option Value}

theorem fillSlot_fillSlot (n : Nat) (ha : c.isActive = false) :
    Column.fillSlot n (Column.fillSlot n c) = Column.fillSlot n c := by
  by_cases hn : c.length = n
  · have hlen := length_appendNull ha
    simp only [Column.fillSlot, if_pos hn]
    rw [if_neg (by omega)]
  · simp only [Column.fillSlot, if_neg hn]

theorem opens?_of_unfinished? {p : Push} {f : Unfinished} (h : p.unfinished? = some f) :
    p.opens?.isSome := by
  cases p <;> first | rfl | cases h

/-- The chosen slots were filled, each with its value or with a missing one. -/
theorem filled_of_chooses (hM : K.Means M) (hstart : K.Starts M r₀)
    (hrow : Chooses M r₀ r chosen val)
    (h : ∀ k, Grown o d (r₀.column k) (val k).toList [] (r.column k)) :
    K.Filled o d r₀ (chosen.map (M.fill val))
      (fun k => if k ∈ chosen then Column.fillSlot K.rows (r.column k) else r.column k) := by
  have hkey : ∀ k ∈ chosen, K.key? r₀.keys (M.selector k) = some k :=
    fun k hk => (hM.key? hstart.apt hrow.apt hk).1
  refine ⟨?_, ?_, ?_⟩
  · have hkeys : (chosen.map (M.fill val)).map (fun f => K.key? r₀.keys f.selector)
        = chosen.map some := by
      rw [List.map_map]
      exact List.map_congr_left hkey
    rw [hkeys]
    exact hrow.nodup.map (Option.some_injective κ)
  · intro f hf
    obtain ⟨k, hk, rfl⟩ := List.mem_map.mp hf
    obtain ⟨hs, ha, hlen⟩ := hstart.slot k
    refine ⟨k, hkey k hk, ?_, ha, Nat.le_of_eq hlen, Value.whole_pushes _, ?_⟩
    · by_cases hmem : k ∈ r₀.keys
      · exact .inl hmem
      · have hadd := (hM.key? hstart.apt hrow.apt hk).2
        exact .inr ⟨hadd.resolve_left hmem, hstart.later k hmem⟩
    · simp only [if_pos hk]
      exact (h k).fillSlot hs ha hlen
  · intro k hk
    have hnot : k ∉ chosen := by
      intro hmem
      exact hk _ (List.mem_map_of_mem hmem) (hkey k hmem)
    have hgrown := h k
    rw [hrow.val_eq k hnot] at hgrown
    simp only [if_neg hnot]
    exact hgrown.eq_of_nil

theorem keysAfter_of_chooses (hM : K.Means M) (hstart : K.Starts M r₀)
    (hrow : Chooses M r₀ r chosen val) :
    K.keysAfter r₀.keys (chosen.map (M.fill val)) = r.keys := by
  have hkeys : (chosen.map (M.fill val)).filterMap (fun f => K.key? r₀.keys f.selector)
      = chosen := by
    rw [List.filterMap_map]
    refine Eq.trans (List.filterMap_congr fun k hk => ?_) List.filterMap_some
    exact (hM.key? hstart.apt hrow.apt hk).1
  rw [keysAfter, hkeys, hrow.keys_eq]

/-- A row that is closed has taken the pushes of the value that it became. -/
theorem takesAll_row {W : Column → Column} (hs : c₁.Sound)
    (hopen : OpenedAfter o d c₀ c₁ vs M.opener W (K.make r₀)) (hK : K.Lawful o) (hM : K.Means M)
    (hstart : K.Starts M r₀) (hrow : Chooses M r₀ r chosen val)
    (hkeys : ∀ k ∈ r.keys, (r.column k).isActive = false)
    (h : ∀ k, Grown o (d + 1) (r₀.column k) (val k).toList [] (r.column k)) :
    TakesAll o d c₁ (M.unfinished chosen val r.selected).value.pushes
      (W (K.closed r.keys r.column)) := by
  have hs₀ := hs.takes hopen.takes
  have hfilled := filled_of_chooses hM hstart hrow h
  obtain ⟨s, hproper, hidle', hrun⟩ :=
    hK.takesAll_fills hstart.proper hstart.idle (hopen.within.sound hs₀) hfilled
  rw [keysAfter_of_chooses hM hstart hrow] at hproper hidle' hrun
  have hcloses := hK.closes
  have hclosed : K.closed r.keys
      (fun k => if k ∈ chosen then Column.fillSlot K.rows (r.column k) else r.column k)
        = K.closed r.keys r.column := by
    refine hK.closed_congr fun k hk => ?_
    by_cases hmem : k ∈ chosen
    · simp only [if_pos hmem]
      exact fillSlot_fillSlot _ (hkeys k hk)
    · simp only [if_neg hmem]
  have hlast := (hK.takesAll_close (d := Push.depthsAfter (d + 1)
    ((chosen.map (M.fill val)).flatMap Fill.run)) hproper hidle' hcloses).mpr ⟨rfl, hclosed.symm⟩
  have hbalanced : Push.Balanced ((chosen.map (M.fill val)).flatMap Fill.run) := by
    refine Fill.balanced_flatMap fun f hf => ?_
    obtain ⟨k, hk, rfl⟩ := List.mem_map.mp hf
    exact ⟨hK.selects (hM.key? hstart.apt hrow.apt hk).1, Value.whole_pushes _⟩
  have hinside := (hopen.within.takesAll_concat_iff hs₀ (hK.isActive r₀) hbalanced).mpr
    ⟨_, rfl, hrun.append hlast⟩
  rw [hM.pushes val r.selected hrow.apt, List.cons_append]
  refine .cons (fun _ => hopen.depth) hopen.takes ?_
  rwa [Push.depthAfter_open (opens?_of_unfinished? hM.opens)]

end Close

/-! ### Opening containers -/

/-- A container that has just been opened, and the tree around it. -/
theorem exists_opened (hs : c.Sound) (ha : c.isActive = false) (hp : p.opens?.isSome)
    (h : Takes o c p c') : ∃ W x, Within W ∧ c' = W x ∧ x.Sound ∧
      x.level? = Level.opened? p ∧ ∀ d, x.inner? = some d → d.isActive = false := by
  have hs' := hs.takes h
  obtain ⟨W, hW, heq, -⟩ := exists_within hs' (h.opens hs ha hp .nil).1
  obtain ⟨l, hl, hnext⟩ := Level.next_open hp c.levels
  refine ⟨W, c'.innermost, hW, heq, hW.sound (heq ▸ hs'), ?_, idle_innermost c'⟩
  rw [level?_innermost hs', (h.step hs).2, hnext, hl, List.head?_cons]

theorem SlotsSound.opened {slots : List Column} {n : Nat} (h : SlotsSound slots n (.filling none))
    {c : Column} (hc : c ∈ slots) (hlen : c.length ≤ n) : c.isActive = false ∧ c.length = n := by
  refine ⟨?_, ?_⟩
  · by_contra ha
    rw [Bool.not_eq_false] at ha
    obtain ⟨i, hi⟩ := List.getElem?_of_mem hc
    exact absurd (h.active i c hi ha).1 nofun
  · rcases h.length c hc with heq | ⟨-, heq⟩ <;> omega

theorem starts_tupleRow {slots : List Column} {n : Nat}
    (hs : (Column.tuple slots n (.filling none)).Sound) (hfilled : filledSlots slots n = ∅) :
    (tupleShape n).Starts (tupleMeaning slots.length) (tupleRow slots n none) := by
  have hslots : SlotsSound slots n (.filling none) := hs.node
  refine ⟨List.nodup_range, rfl, fun i => ?_, fun i hi => ?_, ⟨List.nodup_range, fun _ h => h⟩,
    rfl, rfl⟩
  · cases hi : slots[i]? with
    | none =>
      simp only [tupleRow, hi, Option.getD_none]
      exact ⟨sound_unknown n, rfl, rfl⟩
    | some c =>
      have hmem := List.mem_of_getElem? hi
      have hlen : ¬ n < c.length := by
        intro hlt
        have hfill : i ∈ filledSlots slots n := mem_filledSlots.mpr ⟨c, hi, hlt⟩
        rw [hfilled] at hfill
        cases hfill
      simp only [tupleRow, hi, Option.getD_some]
      exact ⟨hs.children c hmem, hslots.opened hmem (Nat.not_lt.mp hlen)⟩
  · have hnone : slots[i]? = none := by
      rw [List.getElem?_eq_none_iff]
      exact Nat.not_lt.mp fun hlt => hi (List.mem_range.mpr hlt)
    simp only [tupleRow, hnone, Option.getD_none]
    rfl

theorem starts_recordRow {name name' : Option String} {fields : List (String × Column)} {n : Nat}
    {settled declared : Bool}
    (hs : (Column.record name fields n (.filling none) settled declared).Sound)
    (hfilled : filledKeys fields n = ∅) :
    (recordShape name n settled declared).Starts (recordMeaning name')
      (recordRow fields n none) := by
  have hslots : SlotsSound (columnsOf fields) n (.filling none) := hs.node.1
  refine ⟨hs.node.2, rfl, fun key => ?_, fun key hkey => ?_, ⟨List.nodup_nil, by nofun⟩, trivial⟩
  · cases hi : lookup fields key with
    | none =>
      simp only [recordRow, hi, Option.getD_none]
      exact ⟨sound_unknown n, rfl, rfl⟩
    | some c =>
      have hfield := mem_of_lookup hi
      have hmem : c ∈ columnsOf fields := List.mem_map_of_mem hfield
      have hlen : ¬ n < c.length := by
        intro hlt
        have hfill : key ∈ filledKeys fields n := mem_filledKeys.mpr ⟨c, hfield, hlt⟩
        rw [hfilled] at hfill
        cases hfill
      simp only [recordRow, hi, Option.getD_some]
      exact ⟨hs.children c hmem, hslots.opened hmem (Nat.not_lt.mp hlen)⟩
  · have hnone : lookup fields key = none := lookup_eq_none_iff.mpr hkey
    simp only [recordRow, hnone, Option.getD_none]
    rfl

namespace Grown

/-- What opens a container is under way after it. -/
theorem opened {f : Unfinished} (hs : c₁.Sound) (ha : c₁.isActive = false)
    (hdone : TakesAll o d c₀ (Value.itemPushes vs) c₁) (hd : d < o.maxDepth)
    (hp : p.unfinished? = some f) (h : Takes o c₁ p c') : Grown o d c₀ vs [f] c' := by
  obtain ⟨W, x, hW, rfl, hx, hlevel, hinner⟩ :=
    exists_opened hs ha (opens?_of_unfinished? hp) h
  have hrow : ∀ {κ : Type} [DecidableEq κ] {K : RowShape κ} {M : RowMeaning κ} {r : Row κ},
      K.Lawful o → K.Means M → M.opener = p → K.Starts M r → K.make r = x →
        Grown o d c₀ vs [f] (W x) := by
    rintro κ _ K M r hK hM rfl hstart rfl
    obtain rfl : M.unfinished M.start (fun _ => none) none = f :=
      Option.some.inj (hM.opens.symm.trans hp)
    rw [← hstart.selected]
    exact .row ⟨hdone, hd, hW, h⟩ hK hM hstart hstart.chooses (fun _ => rfl)
      fun k => by rw [ite_self]; exact .done (.nil _ _)
  cases p with
  | beginList =>
    cases hp
    unfold level? at hlevel
    split at hlevel <;> try cases hlevel
    next offsets content =>
    exact .list ⟨hdone, hd, hW, h⟩ (hinner content rfl) (.done (.nil _ _))
  | beginTuple m =>
    unfold level? at hlevel
    split at hlevel <;> try cases hlevel
    next slots n slot =>
    obtain ⟨rfl, rfl, hfilled⟩ : slots.length = m ∧ slot = none ∧ filledSlots slots n = ∅ := by
      simpa [Level.opened?] using hlevel
    exact hrow (lawful_tupleShape o n) (means_tupleShape n _) rfl (starts_tupleRow hx hfilled)
      (make_tupleRow hx.node)
  | beginRecord name =>
    unfold level? at hlevel
    split at hlevel <;> try cases hlevel
    next name' fields n slot settled declared =>
    have hslots : SlotsSound (columnsOf fields) n (.filling slot) := hx.node.1
    obtain ⟨hslot, hfilled⟩ : (slot.bind fun i => (fields.map Prod.fst)[i]?) = none ∧
        filledKeys fields n = ∅ := by
      simpa [Level.opened?] using hlevel
    obtain rfl : slot = none := by
      cases slot with
      | none => rfl
      | some i =>
        have hi : i < fields.length := by simpa [columnsOf] using hslots.selected i rfl
        rw [Option.bind_some, List.getElem?_map, List.getElem?_eq_getElem hi] at hslot
        cases hslot
    exact hrow (lawful_recordShape o name' n settled declared)
      (means_recordShape name' name n settled declared) rfl (starts_recordRow hx hfilled)
      (make_recordRow hx.node.2 hslots)
  | _ => cases hp

theorem inner_or_begins (hs : c₀.Sound) (ha : c₀.isActive = false)
    (h : Grown o d c₀ vs stack c) (hp : Takes o c p c') : stack ≠ [] ∨ p.Begins := by
  cases hc : c.isActive with
  | true => exact .inl ((h.isActive hs ha).mp hc)
  | false => exact .inr (hp.begins hc)

/-- A slot that takes an element has no value yet. -/
theorem val_eq_none {n : Nat} {v? : Option Value} (hs : c₀.Sound) (ha : c₀.isActive = false)
    (hn : c₀.length = n) (h : Grown o d c₀ v?.toList stack c) (hlen : c.length ≤ n) :
    v? = none := by
  have heq := h.length hs ha
  cases v? with
  | none => rfl
  | some v =>
    simp only [Option.toList_some, List.length_singleton] at heq
    omega

/-- What is complete with a push that opens nothing. -/
theorem concat_value (hdone : TakesAll o d c₀ (Value.itemPushes vs) c) (hb : p.Begins)
    (hu : p.unfinished? = none) (htext : p.IsText) (hp : Takes o c p c') :
    Grown o d c₀ (vs ++ p.value?.toList) [] c' := by
  obtain ⟨v, hv, hpushes⟩ : ∃ v, p.value? = some v ∧ v.pushes = [p] := by
    cases p with
    | string encoding data =>
      cases encoding with
      | utf8 => exact ⟨_, rfl, by rw [Value.pushes, Push.text, htext]⟩
      | bytes => exact ⟨_, rfl, rfl⟩
    | time kind count unit => cases kind <;> exact ⟨_, rfl, rfl⟩
    | null | bool | int | real | complex => exact ⟨_, rfl, rfl⟩
    | beginList | beginTuple | beginRecord => cases hu
    | _ =>
      rcases hb with hb | ⟨k, hk⟩
      · cases hb
      · cases hk
  have ho : p.opens? = none := by
    cases p <;> first | rfl | cases hu
  rw [hv]
  refine .done (hdone.concat_item ?_)
  rw [hpushes]
  exact .single (by rw [ho]; nofun) hp

/-- A list that is closed has taken the pushes of its items. -/
theorem takesAll_list {W : Column → Column} {offsets : Array Nat} {content₀ content : Column}
    {items : List Value} (hs : c₁.Sound)
    (hopen : OpenedAfter o d c₀ c₁ vs .beginList W (.list offsets content₀ true))
    (hc : content.isActive = false)
    (h : TakesAll o (d + 1) content₀ (Value.itemPushes items) content) :
    TakesAll o d c₁ (Value.list items).pushes
      (W (.list (offsets.push content.length) content false)) := by
  have hinside : ∀ {n : Nat} {c c' : Column} {ps : List Push}, TakesAll o n c ps c' →
      TakesAll o n (.list offsets c true) ps (.list offsets c' true) := by
    intro n c c' ps h
    induction h with
    | nil => exact .nil _ _
    | cons hd hp _ ih => exact .cons hd (.list_item hp) ih
  have hclose : TakesAll o (Push.depthsAfter (d + 1) (Value.itemPushes items))
      (.list offsets content true) [.endList] (.list (offsets.push content.length) content false) :=
    .single nofun (.list_end hc)
  have hbalanced := Value.balanced_itemPushes items
  refine .cons (fun _ => hopen.depth) hopen.takes ?_
  exact (hopen.within.takesAll_concat_iff (hs.takes hopen.takes) rfl hbalanced).mpr
    ⟨_, rfl, (hinside h).append hclose⟩

/-! ### A push into a row -/

section Row

open RowShape

variable {κ : Type} [DecidableEq κ] {K : RowShape κ} {M : RowMeaning κ} {r₀ r : Row κ}
  {chosen : List κ} {val : κ → Option Value} {W : Column → Column} {inner : List Unfinished}
  {k : κ}

/-- Nothing is under way in a row none of whose slots is open. -/
theorem inner_eq_nil (hstart : K.Starts M r₀) (hidle : r.Idle)
    (hinner : r.selected = none → inner = [])
    (h : ∀ k, Grown o d (r₀.column k) (val k).toList
      (if r.selected = some k then inner else []) (r.column k)) : inner = [] := by
  cases hsel : r.selected with
  | none => exact hinner hsel
  | some k =>
    obtain ⟨hs, ha, -⟩ := hstart.slot k
    have hgrown := h k
    rw [if_pos hsel] at hgrown
    exact hgrown.stack_eq_nil hs ha (hidle k hsel)

/-- A slot is selected, and added if the row has no such slot. -/
theorem row_select (hopen : OpenedAfter o d c₀ c₁ vs M.opener W (K.make r₀)) (hK : K.Lawful o)
    (hM : K.Means M) (hstart : K.Starts M r₀) (hrow : Chooses M r₀ r chosen val)
    (hkey : K.key? r.keys p = some k) (hk : k ∈ r.keys ∨ K.mayAdd p = true)
    (hnone : val k = none)
    (h : ∀ k, Grown o (d + 1) (r₀.column k) (val k).toList [] (r.column k)) :
    Grown o d c₀ (vs ++ (assemble [M.unfinished chosen val r.selected] p).1.toList)
      (assemble [M.unfinished chosen val r.selected] p).2
      (W (K.make ⟨withKey r.keys k, r.column, some k⟩)) := by
  obtain ⟨heq, hapt⟩ := hM.select r.selected hrow.apt hkey hk hnone
  rw [assemble_select (hK.selects hkey), heq]
  simp only [Option.toList_none, List.append_nil]
  refine .row hopen hK hM hstart (hrow.select hapt) (by nofun) fun k' => ?_
  rw [ite_self]
  exact h k'

/-- A slot that the row does not have is as if it had been there from the start. -/
theorem row_add (hstart : K.Starts M r₀) (hrow : Chooses M r₀ r chosen val) (hk : k ∉ r.keys)
    (h : Grown o d (r₀.column k) (val k).toList [] (r.column k)) :
    val k = none ∧ r.add k (.unknown K.rows) = ⟨withKey r.keys k, r.column, some k⟩ := by
  have hnot : k ∉ chosen ∧ k ∉ r₀.keys := by
    rw [hrow.keys_eq, mem_foldl_withKey, not_or] at hk
    exact hk.symm
  have hnone := hrow.val_eq k hnot.1
  rw [hnone] at h
  have hunknown : r.column k = .unknown K.rows := h.eq_of_nil.trans (hstart.later k hnot.2)
  refine ⟨hnone, ?_⟩
  rw [Row.add, ← hunknown, Function.update_eq_self, withKey, if_neg hk]

/-- A push goes to the selected slot. -/
theorem row_put (hopen : OpenedAfter o d c₀ c₁ vs M.opener W (K.make r₀)) (hK : K.Lawful o)
    (hM : K.Means M) (hstart : K.Starts M r₀) (hrow : Chooses M r₀ r chosen val)
    (hk : r.selected = some k) (hnone : val k = none) (hp : inner ≠ [] ∨ p.Begins)
    (h : ∀ k, Grown o (d + 1) (r₀.column k) (val k).toList
      (if r.selected = some k then inner else []) (r.column k))
    (hc : Grown o (d + 1) (r₀.column k) (assemble inner p).1.toList (assemble inner p).2 c) :
    Grown o d c₀ (vs ++ (assemble (M.unfinished chosen val r.selected :: inner) p).1.toList)
      (assemble (M.unfinished chosen val r.selected :: inner) p).2 (W (K.make (r.put k c))) := by
  rw [assemble_inner hp, hk, hM.deliver hrow.apt hrow.nodup (hrow.mem k hk) hnone]
  simp only [Option.toList_none, List.append_nil]
  rw [← hk]
  refine .row hopen hK hM hstart (hrow.put hk c _) ?_ fun k' => ?_
  · intro hnone
    rw [show (r.put k c).selected = r.selected from rfl, hk] at hnone
    cases hnone
  · change Grown o (d + 1) (r₀.column k') (Function.update val k _ k').toList
      (if r.selected = some k' then _ else []) (Function.update r.column k c k')
    by_cases hkk : k' = k
    · subst hkk
      rwa [if_pos hk, Function.update_self, Function.update_self]
    · have hother : r.selected ≠ some k' := by
        rw [hk]
        exact fun heq => hkk (Option.some.inj heq).symm
      have hold := h k'
      rw [if_neg hother] at hold ⊢
      rwa [Function.update_of_ne hkk, Function.update_of_ne hkk]

end Row

/-! ### A push anywhere -/

/-- **A column grows by what a push assembles.** -/
theorem takes (hs₀ : c₀.Sound) (ha₀ : c₀.isActive = false) (hs : c.Sound)
    (h : Grown o d c₀ vs stack c) (htext : p.IsText)
    (hd : p.opens?.isSome → d + stack.length < o.maxDepth) (hp : Takes o c p c') :
    Grown o d c₀ (vs ++ (assemble stack p).1.toList) (assemble stack p).2 c' := by
  -- The induction is on what is under way: a push concerns the innermost container, or goes to
  -- what is open inside of the outermost one.
  induction h generalizing c' with
  | @done d c₀ c vs h =>
    have ha := (h.length_items hs₀ ha₀).1
    rw [assemble_nil]
    cases hu : p.unfinished? with
    | some f =>
      have hvalue : p.value? = none := by
        cases p <;> first | rfl | cases hu
      simp only [hvalue, Option.toList_none, List.append_nil, Option.toList_some]
      exact opened hs ha h (hd (opens?_of_unfinished? hu)) hu hp
    | none => exact concat_value h (hp.begins ha) hu htext hp
  | @list d c₀ c₁ vs W offsets content₀ content items inner hopen hidle h ih =>
    have hs₁ := hs₀.takesAll hopen.done
    have hX := hopen.within.sound hs
    have hcontent₀ := (hopen.within.sound (hs₁.takes hopen.takes)).children _
      (List.mem_singleton_self content₀)
    obtain ⟨x, rfl, hx⟩ := hopen.within.exists_takes rfl hp
    cases hx with
    | list_end hc =>
      obtain rfl := h.stack_eq_nil hcontent₀ hidle hc
      rw [assemble_close rfl]
      cases h with
      | done h => exact .done (hopen.done.concat_item (takesAll_list hs₁ hopen hc h))
    | @list_item _ _ content' _ hitem =>
      have hgrown := ih hcontent₀ hidle (hX.children _ (List.mem_singleton_self content))
        (fun ho => by have hlt := hd ho; rw [List.length_cons] at hlt; omega) hitem
      rw [assemble_inner (h.inner_or_begins hcontent₀ hidle hitem)]
      simp only [Unfinished.deliver_list, Option.toList_none, List.append_nil]
      exact .list hopen hidle hgrown
    | first_null hc | own hc | other hc => cases hc
  | @row d c₀ c₁ vs W κ _ K M r₀ r chosen val inner hopen hK hM hstart hrow hinner h ih =>
    have hs₁ := hs₀.takesAll hopen.done
    have hX := hopen.within.sound hs
    obtain ⟨x, rfl, hx⟩ := hopen.within.exists_takes (hK.isActive r) hp
    have hval : ∀ k, (r.column k).length ≤ K.rows → val k = none := by
      intro k hlen
      obtain ⟨hk, ha, hrows⟩ := hstart.slot k
      exact (h k).val_eq_none hk ha hrows hlen
    have hdone : r.Idle → inner = [] ∧
        ∀ k, Grown o (d + 1) (r₀.column k) (val k).toList [] (r.column k) := by
      intro hidle
      obtain rfl := inner_eq_nil hstart hidle hinner h
      exact ⟨rfl, fun k => by have hk := h k; rwa [ite_self] at hk⟩
    cases (hK.takes_iff hrow.proper).mp hx with
    | @select _ k hidle hkey hk hlen =>
      obtain ⟨rfl, hslots⟩ := hdone hidle
      have hgrown := row_select hopen hK hM hstart hrow hkey (.inl hk) (hval k hlen) hslots
      rwa [RowShape.withKey, if_pos hk] at hgrown
    | @add _ k hidle hkey hk hadd =>
      obtain ⟨rfl, hslots⟩ := hdone hidle
      obtain ⟨hnone, heq⟩ := row_add hstart hrow hk (hslots k)
      rw [heq]
      exact row_select hopen hK hM hstart hrow hkey (.inr hadd) hnone hslots
    | close hidle =>
      obtain ⟨rfl, hslots⟩ := hdone hidle
      rw [assemble_close hK.closes]
      exact .done (hopen.done.concat_item (takesAll_row hs₁ hopen hK hM hstart hrow
        (fun k hk => hK.inactive hrow.proper hidle hX hk) hslots))
    | @slot _ k c' hk hlen htakes =>
      obtain ⟨hslot, ha, -⟩ := hstart.slot k
      have hnone := hval k hlen
      have hgrown := h k
      have hstep := @ih k c' hslot ha (hK.slots hX k (hrow.proper.mem k hk)).1
      rw [if_pos hk] at hgrown hstep
      replace hstep := hstep
        (fun ho => by have hlt := hd ho; rw [List.length_cons] at hlt; omega) htakes
      rw [hnone, Option.toList_none, List.nil_append] at hstep
      exact row_put hopen hK hM hstart hrow hk hnone (hgrown.inner_or_begins hslot ha htakes) h
        hstep

theorem depthAfter_add (hs : c₀.Sound) (ha : c₀.isActive = false) (h : Grown o d c₀ vs stack c)
    (hp : Takes o c p c') :
    Builder.depthAfter p (d + stack.length) = d + (assemble stack p).2.length := by
  rw [length_assemble]
  unfold Builder.depthAfter
  split
  · omega
  · split
    · next hc =>
      have hne : stack ≠ [] := by
        rcases h.inner_or_begins hs ha hp with hne | hb
        · exact hne
        · rw [Push.closes?_of_begins hb] at hc
          cases hc
      have hpos := List.length_pos_iff.mpr hne
      omega
    · rfl

/-- **A column grows by what pushes assemble.** -/
theorem takesAll {ps : List Push} (hs₀ : c₀.Sound) (ha₀ : c₀.isActive = false) (hs : c.Sound)
    (h : Grown o d c₀ vs stack c) (htext : ∀ p ∈ ps, p.IsText)
    (hps : TakesAll o (d + stack.length) c ps c') :
    Grown o d c₀ (Assembly.takeAll ⟨vs, stack⟩ ps).done (Assembly.takeAll ⟨vs, stack⟩ ps).stack
      c' := by
  induction ps generalizing vs stack c with
  | nil =>
    cases hps
    exact h
  | cons p ps ih =>
    cases hps with
    | cons hd hp hrest =>
      have hgrown := h.takes hs₀ ha₀ hs (htext p List.mem_cons_self) hd hp
      refine ih (hs.takes hp) hgrown (fun q hq => htext q (List.mem_cons_of_mem _ hq)) ?_
      rwa [h.depthAfter_add hs₀ ha₀ hp] at hrest
end Grown

end Column

end Columnar
