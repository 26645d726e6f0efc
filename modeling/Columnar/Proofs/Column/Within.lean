import Columnar.Proofs.Column.Accepts
import Columnar.Proofs.Column.Runs

/-!
# Columns inside columns

A push goes down to the innermost open container, and what it does there changes nothing on
the way.  So what pushes do to an open column they do inside of any tree in which the column
is the one to which they pass.

## Main definitions

* `Column.Within` — the tree around a column that takes the pushes.

## Main results

* `Column.Within.takes`, `Column.Within.exists_takes` — a push into an open column, seen from
  the tree around it, and back.
* `Column.Within.takesAll_concat_iff` — the same for what is pushed up to its end.
* `Column.exists_within` — the innermost open container and the tree around it.
-/

namespace Columnar.Column

variable {o : Options} {p : Push} {W : Column → Column} {c d d' : Column}

/-- The tree around a column, on the way to which every container is open. -/
inductive Within : (Column → Column) → Prop
  /-- Nothing around. -/
  | here : Within id
  /-- The present elements of an optional column. -/
  | option {W : Column → Column} (index : Array (Option Nat)) (h : Within W) :
      Within fun d => .option index (W d)
  /-- The items of lists. -/
  | list {W : Column → Column} (offsets : Array Nat) (h : Within W) :
      Within fun d => .list offsets (W d) true
  /-- The selected slot of tuples. -/
  | tuple {W : Column → Column} {slots : List Column} (n : Nat) {i : Nat} (hi : i < slots.length)
      (h : Within W) : Within fun d => .tuple (slots.set i (W d)) n (.filling (some i))
  /-- The selected field of records. -/
  | record {W : Column → Column} (name : Option String) {fields : List (String × Column)}
      (n : Nat) {i : Nat} (settled declared : Bool) (hi : i < fields.length) (h : Within W) :
      Within fun d =>
        .record name (setField fields i (W d)) n (.filling (some i)) settled declared
  /-- The child of a union. -/
  | union {W : Column → Column} (tags index : Array Nat) {children : List Column} {tag : Nat}
      (ht : tag < children.length) (h : Within W) :
      Within fun d => .union tags index (children.set tag (W d)) (openTag tag (W d))

theorem setField_setField : ∀ (fields : List (String × Column)) (i : Nat) (c c' : Column),
    setField (setField fields i c) i c' = setField fields i c'
  | [], _, _, _ => rfl
  | _ :: _, 0, _, _ => rfl
  | _ :: rest, i + 1, c, c' => by simp [setField, setField_setField rest i c c']

theorem columnsOf_setField_self {fields : List (String × Column)} {i : Nat}
    (hi : i < fields.length) (c : Column) : (columnsOf (setField fields i c))[i]? = some c := by
  rw [columnsOf_setField, List.getElem?_set_self (by simpa [columnsOf] using hi)]

theorem openTag_of_active {tag : Nat} (ha : c.isActive = true) : openTag tag c = some tag :=
  if_pos ha

namespace Within

theorem isActive (hW : Within W) (ha : d.isActive = true) : (W d).isActive = true := by
  induction hW with
  | here => exact ha
  | option index h ih => exact ih
  | list | tuple | record => rfl
  | union tags index ht h ih => simp [Column.isActive, openTag_of_active ih]

/-- The complete elements around an open container do not depend on what is in it. -/
theorem length_eq (hW : Within W) (ha : d.isActive = true) (ha' : d'.isActive = true)
    (hlen : d.length = d'.length) : (W d).length = (W d').length := by
  cases hW with
  | here => exact hlen
  | option index h => simp only [length, h.isActive ha, h.isActive ha']
  | list | tuple | record => rfl
  | union tags index ht h =>
    simp only [length, openTag_of_active (h.isActive ha), openTag_of_active (h.isActive ha')]

theorem sound (hW : Within W) (hs : (W d).Sound) : d.Sound := by
  induction hW with
  | here => exact hs
  | option index h ih => exact ih (hs.children _ (List.mem_singleton_self _))
  | list offsets h ih => exact ih (hs.children _ (List.mem_singleton_self _))
  | tuple n hi h ih => exact ih (hs.children _ (List.mem_of_getElem? (List.getElem?_set_self hi)))
  | record name n settled declared hi h ih =>
    exact ih (hs.children _ (List.mem_of_getElem? (columnsOf_setField_self hi _)))
  | union tags index ht h ih =>
    exact ih (hs.children _ (List.mem_of_getElem? (List.getElem?_set_self ht)))

/-- What an open column takes, the tree around it takes. -/
theorem takes (hW : Within W) (hs : (W d).Sound) (ha : d.isActive = true)
    (h : Takes o d p d') : Takes o (W d) p (W d') := by
  induction hW with
  | here => exact h
  | option index hW ih =>
    have hs' := hs.children _ (List.mem_singleton_self _)
    exact .option_open (hW.isActive ha) (ih hs')
  | list offsets hW ih => exact .list_item (ih (hs.children _ (List.mem_singleton_self _)))
  | @tuple W slots n i hi hW ih =>
    have hc : (slots.set i (W d))[i]? = some (W d) := List.getElem?_set_self hi
    have hslots : SlotsSound (slots.set i (W d)) n (.filling (some i)) := hs.node
    have hlen := (hslots.active i _ hc (hW.isActive ha)).2
    have htakes := Takes.tuple_slot hc (Nat.le_of_eq hlen)
      (ih (hs.children _ (List.mem_of_getElem? hc)))
    rwa [List.set_set] at htakes
  | @record W name fields n i settled declared hi hW ih =>
    have hc := columnsOf_setField_self hi (W d)
    have hslots : SlotsSound (columnsOf (setField fields i (W d))) n (.filling (some i)) :=
      hs.node.1
    have hlen := (hslots.active i _ hc (hW.isActive ha)).2
    have htakes : Takes o
        (.record name (setField fields i (W d)) n (.filling (some i)) settled declared) p
        (.record name (setField (setField fields i (W d)) i (W d')) n (.filling (some i)) settled
          declared) :=
      .record_slot hc (Nat.le_of_eq hlen) (ih (hs.children _ (List.mem_of_getElem? hc)))
    rwa [setField_setField] at htakes
  | @union W tags index children tag ht hW ih =>
    have hc : (children.set tag (W d))[tag]? = some (W d) := List.getElem?_set_self ht
    have htakes : Takes o (.union tags index (children.set tag (W d)) (some tag)) p
        (.union tags index ((children.set tag (W d)).set tag (W d')) (openTag tag (W d'))) :=
      .union_open hc (ih (hs.children _ (List.mem_of_getElem? hc)))
    simp only [openTag_of_active (hW.isActive ha)]
    rwa [List.set_set] at htakes

/-- What the tree around an open column takes, the column takes. -/
theorem exists_takes (hW : Within W) (ha : d.isActive = true) (h : Takes o (W d) p c) :
    ∃ d', c = W d' ∧ Takes o d p d' := by
  induction hW generalizing c with
  | here => exact ⟨c, rfl, h⟩
  | option index hW ih =>
    have hopen := hW.isActive ha
    cases h with
    | option_open _ h =>
      obtain ⟨d', rfl, htakes⟩ := ih h
      exact ⟨d', rfl, htakes⟩
    | option_null hc | option_present hc =>
      rw [hopen] at hc
      cases hc
    | first_null hc _ ho => exact absurd rfl ho
    | own _ _ hk | other _ _ hk => cases hk
  | list offsets hW ih =>
    cases h with
    | list_item h =>
      obtain ⟨d', rfl, htakes⟩ := ih h
      exact ⟨d', rfl, htakes⟩
    | list_end hc =>
      rw [hW.isActive ha] at hc
      cases hc
    | first_null hc | own hc | other hc => cases hc
  | @tuple W slots n i hi hW ih =>
    have hget : (slots.set i (W d))[i]? = some (W d) := List.getElem?_set_self hi
    have hopen : isActiveAt (slots.set i (W d)) i = true := by
      rw [isActiveAt_eq, hget]
      exact hW.isActive ha
    cases h with
    | tuple_slot hc _ h =>
      rw [hget] at hc
      cases hc
      obtain ⟨d', rfl, htakes⟩ := ih h
      exact ⟨d', by rw [List.set_set], htakes⟩
    | tuple_index hs | tuple_end hs => exact absurd (hopen.symm.trans hs) nofun
    | first_null hc | own hc | other hc => cases hc
  | @record W name fields n i settled declared hi hW ih =>
    have hget := columnsOf_setField_self hi (W d)
    have hopen : isActiveAt (columnsOf (setField fields i (W d))) i = true := by
      rw [isActiveAt_eq, hget]
      exact hW.isActive ha
    cases h with
    | record_slot hc _ h =>
      rw [hget] at hc
      cases hc
      obtain ⟨d', rfl, htakes⟩ := ih h
      exact ⟨d', by rw [setField_setField], htakes⟩
    | record_field hs | record_new hs | record_end hs => exact absurd (hopen.symm.trans hs) nofun
    | first_null hc | own hc | other hc => cases hc
  | @union W tags index children tag ht hW ih =>
    have hget : (children.set tag (W d))[tag]? = some (W d) := List.getElem?_set_self ht
    simp only [openTag_of_active (hW.isActive ha)] at h
    cases h with
    | union_open hc h =>
      rw [hget] at hc
      cases hc
      obtain ⟨d', rfl, htakes⟩ := ih h
      exact ⟨d', by rw [List.set_set], htakes⟩
    | first_null hc | own hc | other hc => cases hc

/-- A run in an open column that stays open, seen from the tree around it. -/
theorem takesAll {n : Nat} {ps : List Push} (hW : Within W) (hs : (W d).Sound)
    (ha : d.isActive = true) (hstays : Level.StaysOpen d.levels ps) (h : TakesAll o n d ps d') :
    TakesAll o n (W d) ps (W d') := by
  induction h with
  | nil => exact .nil _ _
  | cons hd hp _ ih =>
    obtain ⟨ha₁, hstays₁⟩ := hp.staysOpen (hW.sound hs) hstays
    have htakes := hW.takes hs ha hp
    exact .cons hd htakes (ih (hs.takes htakes) ha₁ hstays₁)

/-- A run in the tree around an open column that stays open. -/
theorem exists_takesAll {n : Nat} {ps : List Push} (hW : Within W) (hs : (W d).Sound)
    (ha : d.isActive = true) (hstays : Level.StaysOpen d.levels ps)
    (h : TakesAll o n (W d) ps c) : ∃ d', c = W d' ∧ TakesAll o n d ps d' := by
  induction ps generalizing n d with
  | nil =>
    cases h
    exact ⟨d, rfl, .nil _ _⟩
  | cons p ps ih =>
    cases h with
    | cons hd hp hrest =>
      obtain ⟨d₁, rfl, htakes⟩ := hW.exists_takes ha hp
      obtain ⟨ha₁, hstays₁⟩ := htakes.staysOpen (hW.sound hs) hstays
      obtain ⟨d', rfl, hd'⟩ := ih (hs.takes hp) ha₁ hstays₁ hrest
      exact ⟨d', rfl, .cons hd htakes hd'⟩

end Within

/-- The innermost open container has nothing open in it. -/
theorem idle_innermost (c : Column) : ∀ d, c.innermost.inner? = some d → d.isActive = false := by
  induction c using Column.induct with
  | node c ih =>
    by_cases hidle : ∀ d, c.inner? = some d → d.isActive = false
    · rwa [innermost_of_idle hidle]
    · push Not at hidle
      obtain ⟨d, hd, ha⟩ := hidle
      rw [ne_eq, Bool.not_eq_false] at ha
      rw [innermost_of_inner hd ha]
      exact ih d (mem_children_of_inner? hd)

/-- An open column stays open to what may stand in a container. -/
theorem Sound.staysOpen {ps : List Push} (hs : c.Sound) (ha : c.isActive = true)
    (hps : Push.Balanced ps) : Level.StaysOpen c.levels ps := by
  obtain ⟨l, outer, he⟩ := List.exists_cons_of_ne_nil (levels_ne_nil hs ha)
  rw [he]
  exact (hps.staysOpen l outer).1

/-- What stands in an open container, and one push more, which may close it: the tree around
the container takes it in the same way. -/
theorem Within.takesAll_concat_iff {n : Nat} {ps : List Push} (hW : Within W) (hs : (W d).Sound)
    (ha : d.isActive = true) (hps : Push.Balanced ps) :
    TakesAll o n (W d) (ps ++ [p]) c ↔ ∃ d', c = W d' ∧ TakesAll o n d (ps ++ [p]) d' := by
  have hd := hW.sound hs
  have hstays := hd.staysOpen ha hps
  constructor
  · intro h
    obtain ⟨c₁, hrun, hlast⟩ := takesAll_append.mp h
    obtain ⟨d₁, rfl, hrun'⟩ := hW.exists_takesAll hs ha hstays hrun
    cases hlast with
    | cons hdepth hp hnil =>
      cases hnil
      obtain ⟨d', rfl, hp'⟩ := hW.exists_takes (hrun'.length_open hd ha hstays).1 hp
      exact ⟨d', rfl, hrun'.append (.single hdepth hp')⟩
  · rintro ⟨d', rfl, h⟩
    obtain ⟨d₁, hrun, hlast⟩ := takesAll_append.mp h
    have hrun' := hW.takesAll hs ha hstays hrun
    cases hlast with
    | cons hdepth hp hnil =>
      cases hnil
      have hp' := hW.takes (hs.takesAll hrun') (hrun.length_open hd ha hstays).1 hp
      exact hrun'.append (.single hdepth hp')

/-- An open column is the tree around its innermost open container. -/
theorem exists_within (hs : c.Sound) (ha : c.isActive = true) :
    ∃ W, Within W ∧ c = W c.innermost ∧ c.innermost.isActive = true := by
  induction c using Column.induct with
  | node c ih =>
    by_cases hidle : ∀ d, c.inner? = some d → d.isActive = false
    · rw [innermost_of_idle hidle]
      exact ⟨id, .here, rfl, ha⟩
    · push Not at hidle
      obtain ⟨d, hd, hda⟩ := hidle
      rw [ne_eq, Bool.not_eq_false] at hda
      have hmem := mem_children_of_inner? hd
      obtain ⟨W, hW, heq, hopen⟩ := ih d hmem (hs.children d hmem) hda
      rw [innermost_of_inner hd hda]
      unfold inner? at hd
      split at hd
      · cases hd
        exact ⟨_, hW.option _, by rw [← heq], hopen⟩
      · cases hd
        exact ⟨_, hW.list _, by rw [← heq], hopen⟩
      · next slots n i =>
        obtain ⟨hi, hget⟩ := List.getElem?_eq_some_iff.mp hd
        refine ⟨_, hW.tuple n hi, ?_, hopen⟩
        rw [← heq, ← hget, List.set_getElem_self]
      · next name fields n i settled declared =>
        obtain ⟨hi, -⟩ := List.getElem?_eq_some_iff.mp hd
        refine ⟨_, hW.record name n settled declared (by simpa [columnsOf] using hi), ?_, hopen⟩
        rw [← heq, setField_self _ hd]
      · next tags index children tag =>
        obtain ⟨ht, hget⟩ := List.getElem?_eq_some_iff.mp hd
        refine ⟨_, hW.union tags index ht, ?_, hopen⟩
        rw [← heq, openTag_of_active hda, ← hget, List.set_getElem_self]
      · cases hd

end Columnar.Column
