import Columnar.Proofs.Column.Grown

/-!
# The order of filling does not matter

A builder that has taken pushes is the one that takes the values they mean, as a whole and
one after another.  So nothing is left of the order in which the slots of a tuple or the
fields of a record were filled, and a slot that was not filled is one that was given a missing
element.

## Main definitions

* `Column.hasSlot` — a push selects a slot that an open tuple or record has.

## Main results

* `Builder.Opens.extend_eq_ok` — **pushes build what the values build that they assemble.**
* `Builder.Opens.pushAll_perm` — **slots may be filled in any order.**
* `Builder.Opens.pushAll_null` — **an omitted slot is a missing element.**
-/

namespace Columnar

namespace Column

/-- A push selects a slot that an open tuple or record has. -/
def hasSlot : Column → Push → Bool
  | .tuple slots _ (.filling _), .index i => decide (i < slots.length)
  | .record _ fields _ (.filling _) _ _, .field key _ => (fieldIndex? fields key).isSome
  | _, _ => false

variable {o : Options} {c : Column} {p : Push}

/-- An open tuple or record is a row of slots. -/
theorem exists_row (hs : c.Sound) (hidle : ∀ d, c.inner? = some d → d.isActive = false)
    (h : c.hasSlot p = true) : ∃ (κ : Type) (_ : DecidableEq κ) (K : RowShape κ) (r : Row κ),
      K.Lawful o ∧ c = K.make r ∧ r.Proper ∧ r.Idle ∧
        ∀ q, c.hasSlot q = true → ∃ k ∈ r.keys, K.key? r.keys q = some k := by
  unfold hasSlot at h
  split at h
  · next slots n slot i =>
    have hslots : SlotsSound slots n (.filling slot) := hs.node
    refine ⟨Nat, inferInstance, tupleShape n, tupleRow slots n slot, lawful_tupleShape o n,
      (make_tupleRow hslots).symm, proper_tupleRow hslots, ?_, ?_⟩
    · rintro j ⟨⟩
      have hj := List.getElem?_eq_getElem (hslots.selected j rfl)
      change ((slots[j]?).getD (.unknown n)).isActive = false
      rw [hj]
      exact hidle _ hj
    · intro q hq
      cases q with
      | index j =>
        have hj : j < slots.length := of_decide_eq_true hq
        refine ⟨j, List.mem_range.mpr hj, ?_⟩
        change (List.range slots.length)[j]? = some j
        rw [List.getElem?_range hj]
      | _ => cases hq
  · next name fields n slot settled declared key check =>
    have hslots : SlotsSound (columnsOf fields) n (.filling slot) := hs.node.1
    have hnd : (fields.map Prod.fst).Nodup := hs.node.2
    refine ⟨String, inferInstance, recordShape name n settled declared, recordRow fields n slot,
      lawful_recordShape o name n settled declared, (make_recordRow hnd hslots).symm,
      proper_recordRow hnd n slot, ?_, ?_⟩
    · intro key hkey
      obtain ⟨i, rfl, hi⟩ := Option.bind_eq_some_iff.mp hkey
      have hlt : i < fields.length := by simpa using (List.getElem?_eq_some_iff.mp hi).1
      have hc : (columnsOf fields)[i]? = some fields[i].2 := by
        rw [columnsOf, List.getElem?_map, List.getElem?_eq_getElem hlt]
        rfl
      change ((lookup fields key).getD (.unknown n)).isActive = false
      rw [lookup_of_mem hnd (mem_fields hi hc)]
      exact hidle _ hc
    · intro q hq
      cases q with
      | field key' check' =>
        obtain ⟨i, hi⟩ := Option.isSome_iff_exists.mp hq
        exact ⟨key', List.mem_of_getElem? (fieldIndex?_eq_some hi), rfl⟩
      | _ => cases hq
  · cases h

/-- Something is open where there are slots to select. -/
theorem isActive_of_hasSlot (hs : c.Sound) (h : c.innermost.hasSlot p = true) :
    c.isActive = true := by
  by_contra ha
  have hlevel := level?_innermost hs
  rw [levels_eq_nil (by simpa using ha)] at hlevel
  unfold hasSlot at h
  split at h
  · next heq =>
    rw [heq] at hlevel
    cases hlevel
  · next heq =>
    rw [heq] at hlevel
    cases hlevel
  · cases h

end Column

namespace Builder

variable {b b' : Builder} {levels : List Level} {ps : List Push}

/-- The depth after pushes is that of the stack. -/
theorem length_after (levels : List Level) (ps : List Push) :
    (Level.after levels ps).length = Push.depthsAfter levels.length ps := by
  induction ps generalizing levels with
  | nil => rfl
  | cons p ps ih => rw [Level.after_cons, ih, Level.length_next, Push.depthsAfter_cons]

/-- A sealed builder takes no pushes but none. -/
theorem pushAll_of_isFinalized (hf : b.isFinalized = true) (h : b.pushAll ps = .ok b') :
    ps = [] ∧ b' = b := by
  cases ps with
  | nil => exact ⟨rfl, (Except.ok.inj h).symm⟩
  | cons p ps =>
    have hp : b.push p = .error ⟨b, ⟨p.word, .finalized⟩⟩ := by
      rw [push, cause?, if_pos hf]
    rw [pushAll_cons_error hp] at h
    cases h

/-- **Pushes build what the values build that they assemble**, if no container is open before
and after them. -/
theorem Opens.extend_eq_ok (h : b.Opens []) (htext : ∀ p ∈ ps, p.IsText)
    (hps : b.pushAll ps = .ok b') (hactive : b'.isActive = false) :
    (Assembly.empty.takeAll ps).stack = [] ∧
      b.extend (Assembly.empty.takeAll ps).done = .ok b' := by
  cases hf : b.isFinalized with
  | true =>
    obtain ⟨rfl, rfl⟩ := pushAll_of_isFinalized hf hps
    exact ⟨rfl, rfl⟩
  | false =>
    have ha : b.root.isActive = false := (Column.levels_eq_nil_iff h.sound).mp h.levels_eq
    obtain ⟨root, htakes, rfl⟩ := (pushAll_eq_ok_iff h.sound hf).mp hps
    rw [h.depth_eq] at htakes
    have hstart : Column.Grown b.options 0 b.root [] [] b.root := .done (.nil _ _)
    have hgrown := hstart.takesAll h.sound ha h.sound htext htakes
    change Column.Grown _ _ _ (Assembly.empty.takeAll ps).done
      (Assembly.empty.takeAll ps).stack _ at hgrown
    have hnil := hgrown.stack_eq_nil h.sound ha hactive
    rw [hnil] at hgrown
    cases hgrown with
    | done hitems =>
      have hdepth : Push.depthsAfter b.depth ps = 0 := by
        rw [h.depth_eq, ← length_after, ← h.levels_eq, ← htakes.levels h.sound,
          Column.levels_eq_nil hactive]
        rfl
      refine ⟨hnil, (pushAll_eq_ok_iff h.sound hf).mpr ⟨root, by rwa [h.depth_eq], ?_⟩⟩
      rw [hdepth, (Value.balanced_itemPushes _).depthsAfter, h.depth_eq]
      rfl

/-- What may stand in a container, and one push more, which may close it: the builder takes it
as the innermost open container does. -/
theorem Opens.exists_pushAll_iff (h : b.Opens levels) (hf : b.isFinalized = false)
    (ha : b.isActive = true) : b.root.innermost.Sound ∧ ∃ W : Column → Column,
      ∀ (ps : List Push) (q : Push) (b' : Builder), Push.Balanced ps →
        (b.pushAll (ps ++ [q]) = .ok b' ↔
          ∃ x, Column.TakesAll b.options b.depth b.root.innermost (ps ++ [q]) x ∧
            b' = { b with root := W x, depth := depthAfter q b.depth }) := by
  obtain ⟨W, hW, heq, hopen⟩ := Column.exists_within h.sound ha
  have hs := h.sound
  rw [heq] at hs
  refine ⟨hW.sound hs, W, fun ps q b' hps => ?_⟩
  rw [pushAll_eq_ok_iff h.sound hf, Push.depthsAfter_append, hps.depthsAfter,
    Push.depthsAfter_cons, Push.depthsAfter_nil]
  constructor
  · rintro ⟨root, htakes, rfl⟩
    rw [heq] at htakes
    obtain ⟨x, rfl, hx⟩ := (hW.takesAll_concat_iff hs hopen hps).mp htakes
    exact ⟨x, hx, rfl⟩
  · rintro ⟨x, hx, rfl⟩
    refine ⟨W x, ?_, rfl⟩
    have htakes := (hW.takesAll_concat_iff hs hopen hps).mpr ⟨x, rfl, hx⟩
    rwa [← heq] at htakes

/-- **Slots may be filled in any order**, before the container is closed or another slot is
selected. -/
theorem Opens.pushAll_perm {fills fills' : List Fill} {q : Push} (h : b.Opens levels)
    (hperm : fills.Perm fills') (hfills : ∀ f ∈ fills,
      b.root.innermost.hasSlot f.selector = true ∧ Push.Whole f.pushes) (hq : ¬ q.Begins)
    (hok : b.pushAll (fills.flatMap Fill.run ++ [q]) = .ok b') :
    b.pushAll (fills'.flatMap Fill.run ++ [q]) = .ok b' := by
  cases fills with
  | nil =>
    obtain rfl := hperm.nil_eq
    exact hok
  | cons f rest =>
    have hslot := (hfills f List.mem_cons_self).1
    cases hf : b.isFinalized with
    | true =>
      have hnil := (pushAll_of_isFinalized hf hok).1
      rw [List.append_eq_nil_iff] at hnil
      cases hnil.2
    | false =>
      obtain ⟨hs, W, hiff⟩ := h.exists_pushAll_iff hf (Column.isActive_of_hasSlot h.sound hslot)
      obtain ⟨κ, _, K, r, hK, hmake, hr, hidle, hkeys⟩ :=
        Column.exists_row (o := b.options) hs (Column.idle_innermost b.root) hslot
      have hbalanced : ∀ {gs : List Fill}, (∀ g ∈ gs, g ∈ f :: rest) →
          Push.Balanced (gs.flatMap Fill.run) := by
        intro gs hgs
        refine Fill.balanced_flatMap fun g hg => ?_
        obtain ⟨hg', hw⟩ := hfills g (hgs g hg)
        obtain ⟨k, -, hkey⟩ := hkeys _ hg'
        exact ⟨hK.selects hkey, hw⟩
      obtain ⟨x, hx, rfl⟩ := (hiff _ q b' (hbalanced fun _ hg => hg)).mp hok
      refine (hiff _ q _ (hbalanced fun g hg => hperm.mem_iff.mpr hg)).mpr ⟨x, ?_, rfl⟩
      rw [hmake] at hx hs ⊢
      exact hK.takesAll_perm hr hidle hs hperm
        (fun g hg => ⟨hkeys _ (hfills g hg).1, (hfills g hg).2⟩) hq hx

theorem pushAll_singleton (b : Builder) (p : Push) : b.pushAll [p] = b.push p := by
  rw [pushAll]
  cases b.push p <;> rfl

/-- **An omitted slot is a missing element.** -/
theorem Opens.pushAll_null {p q : Push} (h : b.Opens levels)
    (hp : b.root.innermost.hasSlot p = true) (hok : ∃ b₁, b.push p = .ok b₁)
    (hq : q.closes?.isSome) :
    b.pushAll [p, .null, q] = .ok b' ↔ b.push q = .ok b' := by
  obtain ⟨b₁, hok⟩ := hok
  rw [← pushAll_singleton] at hok ⊢
  have hf : b.isFinalized = false := by
    by_contra hf
    rw [Bool.not_eq_false] at hf
    cases (pushAll_of_isFinalized hf hok).1
  obtain ⟨hs, W, hiff⟩ := h.exists_pushAll_iff hf (Column.isActive_of_hasSlot h.sound hp)
  obtain ⟨κ, _, K, r, hK, hmake, hr, hidle, hkeys⟩ :=
    Column.exists_row (o := b.options) hs (Column.idle_innermost b.root) hp
  obtain ⟨k, hk, hkey⟩ := hkeys p hp
  have hnull : Push.Balanced [p, .null] :=
    .append (.select (hK.selects hkey)) (.flat (.inl rfl) rfl)
  have hselect := (hiff [] p b₁ .nil).mp hok
  have hboth := hiff [p, .null] q b' hnull
  have hclose := hiff [] q b' .nil
  rw [hmake] at hs hselect hboth hclose
  obtain ⟨x, hx, -⟩ := hselect
  have hlen : (r.column k).length ≤ K.rows := by
    cases hx with
    | cons _ htakes _ => exact (hK.eq_select hr hidle hkey hk htakes).2
  rw [List.nil_append] at hclose
  refine hboth.trans (Iff.trans ?_ hclose.symm)
  exact exists_congr fun x => and_congr_left fun _ =>
    hK.takesAll_null hr hidle hs hkey hk hlen hq

/-- **The order of filling does not matter, nor do omitted slots.**  In every state that calls
come to:  if nothing is open before and after pushes of texts, these build what the values
build that they assemble, where a tuple has all its slots by position, and a record the fields
that were selected, in the order in which they first were, with missing values where none was
given; whole elements given to slots that the innermost container has may be given in any
order, before it is closed or another slot is selected; and a slot that is not filled when the
container is closed is like one that is given a missing value. -/
theorem pushAll_assembles (o : Options) (calls : List Request) :
    let b := (new o).run calls
    (∀ (ps : List Push) (b' : Builder), b.isActive = false → (∀ p ∈ ps, p.IsText) →
      b.pushAll ps = .ok b' → b'.isActive = false →
        (Assembly.empty.takeAll ps).stack = [] ∧
          b.extend (Assembly.empty.takeAll ps).done = .ok b') ∧
    (∀ (fills fills' : List Fill) (q : Push) (b' : Builder), fills.Perm fills' →
      (∀ f ∈ fills, b.root.innermost.hasSlot f.selector = true ∧ Push.Whole f.pushes) →
        ¬ q.Begins → b.pushAll (fills.flatMap Fill.run ++ [q]) = .ok b' →
          b.pushAll (fills'.flatMap Fill.run ++ [q]) = .ok b') ∧
    ∀ (p q : Push) (b' : Builder), b.root.innermost.hasSlot p = true →
      (∃ b₁, b.push p = .ok b₁) → q.closes?.isSome →
        (b.pushAll [p, .null, q] = .ok b' ↔ b.push q = .ok b') := by
  intro b
  have h : b.Opens ((new o).opened [] calls) := (opens_new o).run calls
  refine ⟨?_, ?_, ?_⟩
  · intro ps b' ha htext hps hactive
    have hnil : (new o).opened [] calls = [] := by
      rw [← h.levels_eq]
      exact Column.levels_eq_nil ha
    rw [hnil] at h
    exact h.extend_eq_ok htext hps hactive
  · intro fills fills' q b' hperm hfills hq hok
    exact h.pushAll_perm hperm hfills hq hok
  · intro p q b' hp hok hq
    exact h.pushAll_null hp hok hq

/-- A pair that is filled from its end and has its first slot left out, and the same pair
under way, whose slots are filled in the other order. -/
theorem pushAll_assembles_pair :
    let half : Builder := (new {}).run [.push (.beginTuple 2)]
    (∃ b', (new {}).pushAll [.beginTuple 2, .index 1, .int 5, .endTuple] = .ok b' ∧
      (new {}).extend [.tuple [.null, .int 5]] = .ok b') ∧
    (∃ b', half.pushAll [.index 0, .bool true, .index 1, .int 5, .endTuple] = .ok b' ∧
      half.pushAll [.index 1, .int 5, .index 0, .bool true, .endTuple] = .ok b') ∧
    ∃ b', half.pushAll [.index 0, .null, .endTuple] = .ok b' ∧ half.push .endTuple = .ok b' := by
  intro half
  have hinnermost : half.root.innermost = half.root := Column.innermost_of_idle (by nofun)
  refine ⟨⟨_, rfl, ?_⟩, ⟨_, rfl, ?_⟩, ⟨_, rfl, ?_⟩⟩
  · have htext : ∀ p ∈ [Push.beginTuple 2, .index 1, .int 5, .endTuple], p.IsText := by
      simp [Push.IsText]
    exact ((pushAll_assembles {} []).1 _ _ rfl htext rfl rfl).2
  · refine (pushAll_assembles {} [.push (.beginTuple 2)]).2.1
      [⟨.index 0, [.bool true]⟩, ⟨.index 1, [.int 5]⟩]
      [⟨.index 1, [.int 5]⟩, ⟨.index 0, [.bool true]⟩] .endTuple _ (.swap _ _ _) ?_ ?_ rfl
    · have hbool : Push.Whole [.bool true] := .flat (.inr ⟨_, rfl⟩) rfl
      have hint : Push.Whole [.int 5] := .flat (.inr ⟨_, rfl⟩) rfl
      intro f hf
      rw [hinnermost]
      rcases List.mem_cons.mp hf with rfl | hf
      · exact ⟨rfl, hbool⟩
      · rw [List.mem_singleton.mp hf]
        exact ⟨rfl, hint⟩
    · rintro (h | ⟨k, hk⟩)
      · cases h
      · cases hk
  · refine ((pushAll_assembles {} [.push (.beginTuple 2)]).2.2 (.index 0) .endTuple _ ?_ ⟨_, rfl⟩
      rfl).mp rfl
    rw [hinnermost]
    rfl

end Builder

end Columnar
