import Columnar.Proofs.Column.Levels
import Columnar.Proofs.Run
import Columnar.Proofs.Whole

/-!
# Runs of pushes

The rules say what a push does to a sound column, no more and no less.  Pushes one after
another are a run; it is told how many containers are open around the column, so that the
depth limit can be kept.

## Main definitions

* `Column.TakesAll` — pushes take one column to another.

## Main results

* `Column.push_eq_ok_iff` — **what a push does is what the rules say.**
* `Column.TakesAll.length_whole` — one element more after a whole one.
* `Builder.pushAll_eq_ok_iff` — a batch of pushes is a run of the root.
-/

namespace Columnar

namespace Column

variable {o : Options} {p : Push}

/-! ### Following a rule -/

theorem Takes.unitCode? {c c' : Column} (h : Takes o c p c') : p.unitCode? = none := by
  induction h with
  | option_open _ _ ih | list_item _ ih | tuple_slot _ _ _ ih | record_slot _ _ _ ih
  | union_open _ _ ih => exact ih
  | unknown_null | option_null | first_null | list_end | tuple_index | tuple_end | record_field
  | record_new | record_end => rfl
  | unknown_first _ hp => exact Push.unitCode?_of_begins (.inr ⟨_, hp⟩)
  | option_present _ hp => exact Push.unitCode?_of_begins (.inr ⟨_, hp⟩)
  | own _ hp => exact Push.unitCode?_of_begins (.inr ⟨_, hp⟩)
  | other _ hp => exact Push.unitCode?_of_begins (.inr ⟨_, hp⟩)
  | union_own hp => exact Push.unitCode?_of_begins (.inr ⟨_, hp⟩)
  | union_new hp => exact Push.unitCode?_of_begins (.inr ⟨_, hp⟩)

theorem push_eq_pushClosed {c : Column} {k : ElementClass} (hc : c.isActive = false)
    (hk : c.class? = some k) (hp : p.unitCode? = none) : push o c p = pushClosed o c p := by
  unfold push
  split
  · cases hp
  · cases hk
  · cases hk
  · cases hc
  · cases hc
  · cases hc
  · cases hk
  · cases hk
  · rfl

theorem pushClosed_begin {c : Column} {k : ElementClass} (hp : p.elementClass? = some k) :
    pushClosed o c p
      = if admits k c then .ok (c.accept p) else .ok (c.joinedBy (first o p)) := by
  unfold pushClosed
  split
  · cases hp
  · rw [hp]

theorem push_unknown (n : Nat) {k : ElementClass} (hp : p.elementClass? = some k) :
    push o (.unknown n) p = .ok (afterNulls n (first o p)) := by
  cases p with
  | null | unknownUnit | index | field | endList | endTuple | endRecord => cases hp
  | _ => rfl

/-- Where nothing is open, what begins no element is refused. -/
theorem push_idle {c : Column} (hc : c.isActive = false) (hp : p.unitCode? = none)
    (hb : ¬ p.Begins) : push o c p = refuse c p (idleCause p) := by
  cases p with
  | unknownUnit => cases hp
  | null => exact absurd (.inl rfl) hb
  | index | field | endList | endTuple | endRecord =>
    cases c with
    | option index content =>
      have ha : ¬ content.isActive = true := by simpa [isActive] using hc
      exact (if_neg ha).trans rfl
    | list offsets content isOpen =>
      obtain rfl : isOpen = false := hc
      rfl
    | tuple slots n filling =>
      cases filling with
      | closed => rfl
      | filling slot => cases hc
    | record name fields n filling settled declared =>
      cases filling with
      | closed => rfl
      | filling slot => cases hc
    | union tags index children current =>
      obtain rfl : current = none := by simpa [isActive] using hc
      rfl
    | _ => rfl
  | _ => exact absurd (.inr ⟨_, rfl⟩) hb

theorem push_option_open (hp : p.unitCode? = none) (index : Array (Option Nat))
    {content : Column} (hc : content.isActive = true) :
    push o (.option index content) p = (push o content p).inside (.option index) := by
  cases p with
  | unknownUnit => cases hp
  | _ => exact if_pos hc

/-- An element that begins in a column of elements that may be missing. -/
theorem push_option_begin {k : ElementClass} (hp : p.elementClass? = some k)
    (index : Array (Option Nat)) {content : Column} (hc : content.isActive = false) :
    push o (.option index content) p
      = match push o content p with
        | .ok content' => .ok (.option (index.push (some content.length)) content')
        | .error r => .error ⟨.option index r.state, r.error⟩ := by
  have ha : ¬ content.isActive = true := by simp [hc]
  cases p with
  | null | unknownUnit | index | field | endList | endTuple | endRecord => cases hp
  | _ => exact (if_neg ha).trans rfl

theorem push_list_open (hp : p.unitCode? = none) (offsets : Array Nat) {content : Column}
    (hc : ¬ (p = .endList ∧ ¬ content.isActive = true)) :
    push o (.list offsets content true) p
      = (push o content p).inside fun content => .list offsets content true := by
  cases p with
  | unknownUnit => cases hp
  | _ => exact if_neg hc

/-- A tuple in which nothing is open refuses a push for the slot that is selected, or passes it
on. -/
theorem push_tuple_idle (hp : p.unitCode? = none) {slots : List Column} {n : Nat}
    {slot : Option Nat} (ha : isSlotActive slots (.filling slot) = false)
    (hi : ∀ i, p ≠ .index i) (he : p ≠ .endTuple) :
    push o (.tuple slots n (.filling slot)) p
      = match slotCause? p .tuple slots n (.filling slot) toString with
        | some cause => refuse (.tuple slots n (.filling slot)) p cause
        | none =>
          (pushAt o slots (slot.getD 0) p).inside fun slots => .tuple slots n (.filling slot) := by
  have ha' : ¬ isSlotActive slots (.filling slot) = true := by simp [ha]
  cases p with
  | unknownUnit => cases hp
  | index i => exact absurd rfl (hi i)
  | endTuple => exact absurd rfl he
  | _ => exact (if_neg ha').trans rfl

/-- A push that passes to the selected slot of an open tuple. -/
theorem push_tuple_slot (hp : p.unitCode? = none) {slots : List Column} {n : Nat}
    {slot : Option Nat} (h : isSlotActive slots (.filling slot) = true ∨
      p.Begins ∧ slotCause? p .tuple slots n (.filling slot) toString = none) :
    push o (.tuple slots n (.filling slot)) p
      = (pushAt o slots (slot.getD 0) p).inside fun slots => .tuple slots n (.filling slot) := by
  by_cases ha : isSlotActive slots (.filling slot) = true
  · cases p with
    | unknownUnit => cases hp
    | _ => exact if_pos ha
  · obtain ⟨hb, hcause⟩ := h.resolve_left ha
    rw [push_tuple_idle hp (by simpa using ha), hcause]
    · rintro i rfl
      cases Push.selects?_of_begins hb
    · rintro rfl
      cases Push.closes?_of_begins hb

/-- A record in which nothing is open, likewise. -/
theorem push_record_idle (hp : p.unitCode? = none) (name : Option String)
    {fields : List (String × Column)} {n : Nat} {slot : Option Nat} (settled declared : Bool)
    (ha : isSlotActive (columnsOf fields) (.filling slot) = false)
    (hf : ∀ key check, p ≠ .field key check) (he : p ≠ .endRecord) :
    push o (.record name fields n (.filling slot) settled declared) p
      = match slotCause? p .record (columnsOf fields) n (.filling slot)
            (fun i => (fields[i]?.map Prod.fst).getD "") with
        | some cause => refuse (.record name fields n (.filling slot) settled declared) p cause
        | none =>
          (pushField o fields (slot.getD 0) p).inside fun fields =>
            .record name fields n (.filling slot) settled declared := by
  have ha' : ¬ isSlotActive (columnsOf fields) (.filling slot) = true := by simp [ha]
  cases p with
  | unknownUnit => cases hp
  | field key check => exact absurd rfl (hf key check)
  | endRecord => exact absurd rfl he
  | _ => exact (if_neg ha').trans rfl

/-- A push that passes to the selected field of an open record. -/
theorem push_record_slot (hp : p.unitCode? = none) {name : Option String}
    {fields : List (String × Column)} {n : Nat} {slot : Option Nat} {settled declared : Bool}
    (h : isSlotActive (columnsOf fields) (.filling slot) = true ∨
      p.Begins ∧ slotCause? p .record (columnsOf fields) n (.filling slot)
        (fun i => (fields[i]?.map Prod.fst).getD "") = none) :
    push o (.record name fields n (.filling slot) settled declared) p
      = (pushField o fields (slot.getD 0) p).inside fun fields =>
        .record name fields n (.filling slot) settled declared := by
  by_cases ha : isSlotActive (columnsOf fields) (.filling slot) = true
  · cases p with
    | unknownUnit => cases hp
    | _ => exact if_pos ha
  · obtain ⟨hb, hcause⟩ := h.resolve_left ha
    rw [push_record_idle hp name settled declared (by simpa using ha), hcause]
    · rintro key check rfl
      cases Push.selects?_of_begins hb
    · rintro rfl
      cases Push.closes?_of_begins hb

theorem push_union_open (hp : p.unitCode? = none) (tags index : Array Nat)
    (children : List Column) (tag : Nat) :
    push o (.union tags index children (some tag)) p
      = match pushAt o children tag p with
        | .ok children =>
          .ok (.union tags index children (if isActiveAt children tag then some tag else none))
        | .error r => .error ⟨.union tags index r.state (some tag), r.error⟩ := by
  cases p with
  | unknownUnit => cases hp
  | _ => rfl

/-- An element that begins in a union goes to the child of its class, or makes a new one. -/
theorem push_union_begin {k : ElementClass} (hp : p.elementClass? = some k)
    (tags index : Array Nat) (children : List Column) :
    push o (.union tags index children none) p
      = match children.findIdx? (admits k) with
        | some tag =>
          match pushAt o children tag p with
          | .ok children' =>
            .ok (.union (tags.push tag) (index.push (lengthAt children tag)) children'
              (if isActiveAt children' tag then some tag else none))
          | .error r => .error ⟨.union tags index r.state none, r.error⟩
        | none =>
          if maxUnionKinds ≤ children.length then
            refuse (.union tags index children none) p .unionOverflow
          else .ok (addChild tags index children (first o p)) := by
  cases p with
  | null | unknownUnit | index | field | endList | endTuple | endRecord => cases hp
  | _ =>
    cases hp
    rfl

theorem pushAt_eq_ok {cs : List Column} {i : Nat} {c c' : Column} (hc : cs[i]? = some c)
    (h : push o c p = .ok c') : pushAt o cs i p = .ok (cs.set i c') := by
  rw [pushAt_eq, hc]
  simp only [h, Pushed.inside_ok]

theorem pushField_eq_ok {fields : List (String × Column)} {i : Nat} {c c' : Column}
    (hc : (columnsOf fields)[i]? = some c) (h : push o c p = .ok c') :
    pushField o fields i p = .ok (setField fields i c') := by
  rw [pushField_eq, hc]
  simp only [h, Pushed.inside_ok]

/-- What a slot takes is passed to it: the slot is open, or an element begins there. -/
theorem Takes.passes {slots : List Column} {n i : Nat} {c c' : Column}
    (h : Takes o c p c') (hc : slots[i]? = some c) (hlen : c.length ≤ n)
    (container : Container) (nameOf : Nat → String) :
    isSlotActive slots (.filling (some i)) = true ∨
      p.Begins ∧ slotCause? p container slots n (.filling (some i)) nameOf = none := by
  have hactive : isSlotActive slots (.filling (some i)) = c.isActive := by
    change isActiveAt slots i = c.isActive
    rw [isActiveAt_eq, hc]
    rfl
  cases ha : c.isActive with
  | true => exact .inl (hactive.trans ha)
  | false =>
    refine .inr ⟨h.begins ha, if_neg fun ⟨_, _, hlt⟩ => ?_⟩
    rw [lengthAt_eq, hc] at hlt
    exact absurd hlt (Nat.not_lt.mpr hlen)

/-- A rule that a push follows is what the push does. -/
theorem Takes.push_eq {c c' : Column} (h : Takes o c p c') : push o c p = .ok c' := by
  have hunit : ∀ {q : Push} {k : ElementClass}, q.elementClass? = some k → q.unitCode? = none :=
    fun hq => Push.unitCode?_of_begins (.inr ⟨_, hq⟩)
  induction h with
  | unknown_null n => rfl
  | unknown_first n hp => exact push_unknown n hp
  | option_null hc => exact if_neg (by simp [hc])
  | option_present hc hp h ih => rw [push_option_begin hp _ hc, ih]
  | option_open hc h ih => rw [push_option_open h.unitCode? _ hc, ih, Pushed.inside_ok]
  | @first_null c hc hu ho =>
    rw [← appendNull_of_kind hu ho]
    cases hk : c.class? with
    | some k => rw [push_eq_pushClosed hc hk rfl, pushClosed]
    | none =>
      cases c with
      | unknown n => exact absurd rfl hu
      | option index content => exact absurd rfl ho
      | union tags index children current =>
        obtain rfl : current = none := by simpa [isActive] using hc
        rfl
      | _ => cases hk
  | own hc hp hk =>
    rw [push_eq_pushClosed hc hk (hunit hp), pushClosed_begin hp, if_pos (admits_iff.mpr hk)]
  | @other c p k k' hc hp hk hne =>
    have hadmits : ¬ admits k c = true := fun h =>
      hne (Option.some.inj (hk.symm.trans (admits_iff.mp h)))
    rw [push_eq_pushClosed hc hk (hunit hp), pushClosed_begin hp, if_neg hadmits]
  | list_end hc => exact if_pos ⟨rfl, by simp [hc]⟩
  | @list_item offsets content content' p h ih =>
    have hend : ¬ (p = .endList ∧ ¬ content.isActive = true) := by
      rintro ⟨rfl, hc⟩
      have hcloses := Push.closes?_of_begins (h.begins (by simpa using hc))
      cases hcloses
    rw [push_list_open h.unitCode? _ hend, ih, Pushed.inside_ok]
  | @tuple_index slots n slot i c hs hc hlen =>
    have hi := (List.getElem?_eq_some_iff.mp hc).1
    have hfree : ¬ n < lengthAt slots i := by
      rw [lengthAt_eq, hc]
      exact Nat.not_lt.mpr hlen
    refine (if_neg (by simp [hs])).trans ?_
    change selectSlot slots n (.filling slot) i = _
    rw [selectSlot, if_neg (Nat.not_le.mpr hi), if_neg hfree]
  | tuple_end hs => exact if_neg (by simp [hs])
  | tuple_slot hc hlen h ih =>
    rw [push_tuple_slot h.unitCode? (h.passes hc hlen _ _), Option.getD_some,
      pushAt_eq_ok hc ih, Pushed.inside_ok]
  | @record_field name fields n slot settled declared key check i c hs hi hc hlen =>
    have hfree : ¬ n < lengthAt (columnsOf fields) i := by
      rw [lengthAt_eq, hc]
      exact Nat.not_lt.mpr hlen
    refine (if_neg (by simp [hs])).trans ?_
    change selectField name fields n (.filling slot) settled declared key check = _
    rw [selectField, hi]
    exact if_neg hfree
  | @record_new name fields n slot settled declared key check hs hi hcheck =>
    refine (if_neg (by simp [hs])).trans ?_
    change selectField name fields n (.filling slot) settled declared key check = _
    rw [selectField, hi]
    exact if_neg (by simp [hcheck])
  | record_end hs => exact if_neg (by simp [hs])
  | record_slot hc hlen h ih =>
    rw [push_record_slot h.unitCode? (h.passes hc hlen _ _), Option.getD_some,
      pushField_eq_ok hc ih, Pushed.inside_ok]
  | union_own hp ht hc h ih =>
    rw [push_union_begin hp, ht]
    simp only [pushAt_eq_ok hc ih, openTag_set hc, lengthAt_eq, hc, Option.map_some,
      Option.getD_some]
  | union_new hp ht hlt =>
    rw [push_union_begin hp, ht]
    exact if_neg (Nat.not_le.mpr hlt)
  | @union_open tags index children tag c c' p hc h ih =>
    rw [push_union_open h.unitCode?, pushAt_eq_ok hc ih]
    simp only [openTag_set hc]

/-- What a push does to a sound column is what the rules say. -/
theorem push_eq_ok_iff {c c' : Column} (hs : c.Sound) : push o c p = .ok c' ↔ Takes o c p c' :=
  ⟨takes_of_push hs, Takes.push_eq⟩

/-- A push has one outcome. -/
theorem Takes.unique {c c' c'' : Column} (h : Takes o c p c') (h' : Takes o c p c'') :
    c' = c'' := Except.ok.inj (h.push_eq.symm.trans h'.push_eq)

/-- A column that is not open takes a missing element. -/
theorem takes_null {c : Column} (ha : c.isActive = false) : Takes o c .null c.appendNull := by
  rcases kind_cases c with ⟨n, rfl⟩ | ⟨index, content, rfl⟩ | ⟨hu, ho⟩
  · exact .unknown_null n
  · exact .option_null ha
  · rw [appendNull_of_kind hu ho]
    exact .first_null ha hu ho

/-! ### Pushes one after another -/

/-- Pushes take one column to another, inside of `d` open containers. -/
inductive TakesAll (o : Options) : Nat → Column → List Push → Column → Prop
  /-- No push. -/
  | nil (d : Nat) (c : Column) : TakesAll o d c [] c
  /-- A push, which the depth limit allows, and then the others. -/
  | cons {d : Nat} {c c₁ c' : Column} {p : Push} {ps : List Push}
      (hd : p.opens?.isSome → d < o.maxDepth) (h : Takes o c p c₁)
      (hs : TakesAll o (Builder.depthAfter p d) c₁ ps c') : TakesAll o d c (p :: ps) c'

variable {d : Nat} {c c' : Column} {ps qs : List Push}

theorem TakesAll.single (hd : p.opens?.isSome → d < o.maxDepth) (h : Takes o c p c') :
    TakesAll o d c [p] c' :=
  .cons hd h (.nil _ _)

theorem takesAll_append : TakesAll o d c (ps ++ qs) c'
    ↔ ∃ c₁, TakesAll o d c ps c₁ ∧ TakesAll o (Push.depthsAfter d ps) c₁ qs c' := by
  constructor
  · intro h
    induction ps generalizing d c with
    | nil => exact ⟨c, .nil _ _, h⟩
    | cons p ps ih =>
      cases h with
      | cons hd hp hs =>
        obtain ⟨c₁, h₁, h₂⟩ := ih hs
        exact ⟨c₁, .cons hd hp h₁, h₂⟩
  · rintro ⟨c₁, h₁, h₂⟩
    induction h₁ with
    | nil => exact h₂
    | cons hd hp _ ih => exact .cons hd hp (ih h₂)

theorem TakesAll.append {c₁ : Column} (h₁ : TakesAll o d c ps c₁)
    (h₂ : TakesAll o (Push.depthsAfter d ps) c₁ qs c') : TakesAll o d c (ps ++ qs) c' :=
  takesAll_append.mpr ⟨c₁, h₁, h₂⟩

theorem Sound.takesAll (hs : c.Sound) (h : TakesAll o d c ps c') : c'.Sound := by
  induction h with
  | nil => exact hs
  | cons _ hp _ ih => exact ih (hs.takes hp)

/-- A run goes through the levels of the stack machine. -/
theorem TakesAll.levels (hs : c.Sound) (h : TakesAll o d c ps c') :
    c'.levels = Level.after c.levels ps := by
  induction h with
  | nil => rfl
  | cons _ hp _ ih => rw [ih (hs.takes hp), (hp.step hs).2, Level.after_cons]

theorem Takes.staysOpen {c₁ : Column} (hs : c.Sound) (h : Takes o c p c₁)
    (hstays : Level.StaysOpen c.levels (p :: ps)) :
    c₁.isActive = true ∧ Level.StaysOpen c₁.levels ps := by
  have hstep := (h.step hs).2
  refine ⟨?_, by rw [hstep]; exact hstays.2⟩
  by_contra ha
  rw [levels_eq_nil (by simpa using ha)] at hstep
  exact hstays.1 hstep.symm

/-- A container that stays open adds nothing to the complete elements. -/
theorem TakesAll.length_open (hs : c.Sound) (ha : c.isActive = true)
    (hstays : Level.StaysOpen c.levels ps) (h : TakesAll o d c ps c') :
    c'.isActive = true ∧ c'.length = c.length := by
  induction h with
  | nil => exact ⟨ha, rfl⟩
  | cons _ hp _ ih =>
    obtain ⟨ha₁, hstays₁⟩ := hp.staysOpen hs hstays
    obtain ⟨ha', hlen⟩ := ih (hs.takes hp) ha₁ hstays₁
    have hadd := hp.length_add hs
    rw [ha₁, Bool.toNat_true] at hadd
    exact ⟨ha', by omega⟩

/-- A container that is opened stays open to what stands in it. -/
theorem Takes.opens {inner : List Push} (hs : c.Sound) (ha : c.isActive = false)
    (hp : p.opens?.isSome) (hi : Push.Balanced inner) (h : Takes o c p c') :
    c'.isActive = true ∧ Level.StaysOpen c'.levels inner := by
  obtain ⟨l, -, hnext⟩ := Level.next_open hp c.levels
  have hlevels : c'.levels = [l] := by rw [(h.step hs).2, hnext, levels_eq_nil ha]
  refine ⟨?_, by rw [hlevels]; exact (hi.staysOpen l []).1⟩
  by_contra hn
  rw [levels_eq_nil (by simpa using hn)] at hlevels
  cases hlevels

/-- The beginning, the inside and the end of a container. -/
theorem TakesAll.exists_container {q : Push} {inner : List Push} (hs : c.Sound)
    (ha : c.isActive = false) (hp : p.opens?.isSome) (hi : Push.Balanced inner)
    (h : TakesAll o d c (p :: inner ++ [q]) c') :
    ∃ c₁ c₂, d < o.maxDepth ∧ Takes o c p c₁ ∧ TakesAll o (d + 1) c₁ inner c₂ ∧
      c₂.isActive = true ∧ c₂.length = c₁.length ∧ Takes o c₂ q c' := by
  cases h with
  | @cons _ _ c₁ _ _ _ hd hopen hrest =>
    obtain ⟨c₂, hinner, hlast⟩ := takesAll_append.mp hrest
    have hs₁ := hs.takes hopen
    obtain ⟨ha₁, hstays⟩ := hopen.opens hs ha hp hi
    obtain ⟨ha₂, hlen⟩ := hinner.length_open hs₁ ha₁ hstays
    rw [Push.depthAfter_open hp] at hinner
    cases hlast with
    | cons _ hclose hnil =>
      cases hnil
      exact ⟨c₁, c₂, hd hp, hopen, hinner, ha₂, hlen, hclose⟩

/-- One element more after a whole one. -/
theorem TakesAll.length_whole (hs : c.Sound) (ha : c.isActive = false) (hw : Push.Whole ps)
    (h : TakesAll o d c ps c') : c'.isActive = false ∧ c'.length = c.length + 1 := by
  have hlevels : c'.levels = [] := by
    rw [h.levels hs, hw.after_eq, levels_eq_nil ha]
    rfl
  have hclosed := (levels_eq_nil_iff (hs.takesAll h)).mp hlevels
  refine ⟨hclosed, ?_⟩
  cases hw with
  | flat hb ho =>
    cases h with
    | cons _ hp hrest =>
      cases hrest
      have hadd := hp.length_add hs
      rwa [hclosed] at hadd
  | container hp hi hq =>
    -- the element is counted when its container is closed
    obtain ⟨c₁, c₂, -, hopen, hinner, -, hlen, hclose⟩ := h.exists_container hs ha hp hi
    have hs₁ := hs.takes hopen
    have hadd₁ := hopen.length_add hs
    rw [(hopen.opens hs ha hp hi).1, Bool.toNat_true] at hadd₁
    have hadd := hclose.length_add (hs₁.takesAll hinner)
    rw [hclosed, Bool.toNat_false] at hadd
    omega

end Column

namespace Builder

/-! ### Batches of pushes -/

variable {b b' : Builder} {p : Push} {ps : List Push}

theorem cause?_eq_none_iff (hf : b.isFinalized = false) :
    b.cause? p = none ↔ (p.opens?.isSome → b.depth < b.options.maxDepth) := by
  rw [cause?, if_neg (by simp [hf])]
  split
  · next h => exact ⟨by rintro ⟨⟩, fun hd => absurd (hd h.1) (Nat.not_lt.mpr h.2)⟩
  · next h => exact ⟨fun _ ho => Nat.lt_of_not_le fun hle => h ⟨ho, hle⟩, fun _ => rfl⟩

/-- A push that a builder takes is one that the depth limit allows and the root takes. -/
theorem push_eq_ok_iff (hs : b.root.Sound) (hf : b.isFinalized = false) :
    b.push p = .ok b' ↔ (p.opens?.isSome → b.depth < b.options.maxDepth) ∧
      ∃ root, Column.Takes b.options b.root p root ∧
        b' = { b with root := root, depth := depthAfter p b.depth } := by
  rw [← cause?_eq_none_iff hf]
  obtain ⟨options, root, parameters, isFinalized, depth⟩ := b
  unfold push
  constructor
  · intro h
    split at h
    · cases h
    · next hcause =>
      simp only at h
      split at h
      · next root' hroot =>
        exact ⟨hcause, root', Column.takes_of_push hs hroot, (Except.ok.inj h).symm⟩
      · cases h
  · rintro ⟨hcause, root', htakes, rfl⟩
    rw [hcause]
    simp only [htakes.push_eq]

/-- A batch of pushes is a run of the root. -/
theorem pushAll_eq_ok_iff (hs : b.root.Sound) (hf : b.isFinalized = false) :
    b.pushAll ps = .ok b' ↔ ∃ root, Column.TakesAll b.options b.depth b.root ps root ∧
      b' = { b with root := root, depth := Push.depthsAfter b.depth ps } := by
  induction ps generalizing b with
  | nil =>
    constructor
    · intro h
      exact ⟨b.root, .nil _ _, (Except.ok.inj h).symm⟩
    · rintro ⟨root, ⟨⟩, rfl⟩
      rfl
  | cons p ps ih =>
    constructor
    · intro h
      cases hp : b.push p with
      | error r =>
        rw [pushAll_cons_error hp] at h
        cases h
      | ok b₁ =>
        obtain ⟨hd, root₁, htakes, rfl⟩ := (push_eq_ok_iff hs hf).mp hp
        rw [pushAll_cons_ok hp] at h
        have hiff := ih (b := { b with root := root₁, depth := depthAfter p b.depth })
          (hs.takes htakes) hf
        obtain ⟨root, hrest, rfl⟩ := hiff.mp h
        exact ⟨root, .cons hd htakes hrest, rfl⟩
    · rintro ⟨root, htakes, rfl⟩
      cases htakes with
      | @cons _ _ root₁ _ _ _ hd hp hrest =>
        have hiff := ih (b := { b with root := root₁, depth := depthAfter p b.depth })
          (hs.takes hp) hf
        rw [pushAll_cons_ok ((push_eq_ok_iff hs hf).mpr ⟨hd, root₁, hp, rfl⟩)]
        exact hiff.mpr ⟨root, hrest, rfl⟩

end Builder

end Columnar
