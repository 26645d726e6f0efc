import Columnar.Builder
import Columnar.Proofs.Level

/-!
# Whole elements

Pushes that belong together make one element, whatever was pushed before: a single push, or
the beginning and the end of a container with what stands between them.  Inside of a
container there are whole elements and choices of slots, in any order.

## Main definitions

* `Push.Balanced`, `Push.Whole` — what stands in a container, and one element.
* `Push.depthsAfter` — the number of open containers after pushes.
* `Level.StaysOpen` — a container is open after every one of the pushes.

## Main results

* `Push.Balanced.staysOpen` — what stands in a container leaves it open.
* `Value.whole_pushes` — the pushes of a value make one element.
-/

namespace Columnar

namespace Push

/-- What may stand in a container: whole elements, and choices of slots. -/
inductive Balanced : List Push → Prop
  /-- Nothing. -/
  | nil : Balanced []
  /-- The choice of a slot. -/
  | select {p : Push} (h : p.selects?.isSome) : Balanced [p]
  /-- An element that is no container. -/
  | flat {p : Push} (h : p.Begins) (ho : p.opens? = none) : Balanced [p]
  /-- A container. -/
  | container {p q : Push} {inner : List Push} (hp : p.opens?.isSome) (hi : Balanced inner)
      (hq : q.closes?.isSome) : Balanced (p :: inner ++ [q])
  /-- One after the other. -/
  | append {ps qs : List Push} (hps : Balanced ps) (hqs : Balanced qs) : Balanced (ps ++ qs)

/-- One element. -/
inductive Whole : List Push → Prop
  /-- An element that is no container. -/
  | flat {p : Push} (h : p.Begins) (ho : p.opens? = none) : Whole [p]
  /-- A container. -/
  | container {p q : Push} {inner : List Push} (hp : p.opens?.isSome) (hi : Balanced inner)
      (hq : q.closes?.isSome) : Whole (p :: inner ++ [q])

theorem Whole.balanced {ps : List Push} : Whole ps → Balanced ps
  | .flat h ho => .flat h ho
  | .container hp hi hq => .container hp hi hq

/-- A push that opens a container begins an element. -/
theorem begins_of_opens {p : Push} (h : p.opens?.isSome) : p.Begins := by
  cases p <;> first | exact .inr ⟨_, rfl⟩ | cases h

/-! ### Depths -/

/-- The number of open containers after pushes one after another. -/
def depthsAfter (depth : Nat) (ps : List Push) : Nat :=
  ps.foldl (fun depth p => Builder.depthAfter p depth) depth

@[simp] theorem depthsAfter_nil (depth : Nat) : depthsAfter depth [] = depth := rfl

@[simp] theorem depthsAfter_cons (depth : Nat) (p : Push) (ps : List Push) :
    depthsAfter depth (p :: ps) = depthsAfter (Builder.depthAfter p depth) ps := rfl

@[simp] theorem depthsAfter_append (depth : Nat) (ps qs : List Push) :
    depthsAfter depth (ps ++ qs) = depthsAfter (depthsAfter depth ps) qs := List.foldl_append

theorem depthAfter_open {p : Push} (h : p.opens?.isSome) (depth : Nat) :
    Builder.depthAfter p depth = depth + 1 := if_pos h

theorem depthAfter_close {p : Push} (h : p.closes?.isSome) (depth : Nat) :
    Builder.depthAfter p (depth + 1) = depth := by
  cases p <;> first | rfl | cases h

theorem depthAfter_flat {p : Push} (ho : p.opens? = none) (hc : p.closes? = none) (depth : Nat) :
    Builder.depthAfter p depth = depth := by
  rw [Builder.depthAfter, ho, hc]
  rfl

/-- As many containers are closed in a container as are opened. -/
theorem Balanced.depthsAfter {ps : List Push} (h : Balanced ps) (depth : Nat) :
    depthsAfter depth ps = depth := by
  induction h generalizing depth with
  | nil => rfl
  | @select p h =>
    cases p <;> first | rfl | cases h
  | flat h ho => exact depthAfter_flat ho (closes?_of_begins h) depth
  | container hp _ hq ih =>
    rw [List.cons_append, depthsAfter_cons, depthsAfter_append, depthAfter_open hp, ih,
      depthsAfter_cons, depthAfter_close hq, depthsAfter_nil]
  | append _ _ ih₁ ih₂ => rw [depthsAfter_append, ih₁, ih₂]

end Push

namespace Level

open Push

/-! ### Containers that stay open -/

/-- Something is open after every one of the pushes. -/
def StaysOpen : List Level → List Push → Prop
  | _, [] => True
  | levels, p :: ps => next levels p ≠ [] ∧ StaysOpen (next levels p) ps

theorem staysOpen_append {levels : List Level} {ps qs : List Push} :
    StaysOpen levels (ps ++ qs) ↔ StaysOpen levels ps ∧ StaysOpen (after levels ps) qs := by
  induction ps generalizing levels with
  | nil => simp [StaysOpen]
  | cons p ps ih => simp [StaysOpen, ih, and_assoc]

theorem next_flat {p : Push} (h : p.Begins) (ho : p.opens? = none) (levels : List Level) :
    next levels p = complete levels := by
  have hopened : opened? p = none := by
    cases p <;> first | rfl | cases ho
  rw [next, selects?_of_begins h, closes?_of_begins h, hopened]
  rfl

theorem next_open {p : Push} (h : p.opens?.isSome) (levels : List Level) :
    ∃ l, opened? p = some l ∧ next levels p = l :: levels := by
  cases p <;> first | exact ⟨_, rfl, rfl⟩ | cases h

theorem next_close {p : Push} (h : p.closes?.isSome) (levels : List Level) :
    next levels p = complete levels.tail := by
  cases p <;> first | rfl | cases h

end Level

namespace Push

open Level

/-- What stands in a container leaves it open, and does not touch those around it. -/
theorem Balanced.staysOpen {ps : List Push} (h : Balanced ps) (l : Level) (outer : List Level) :
    StaysOpen (l :: outer) ps ∧ ∃ l', after (l :: outer) ps = l' :: outer := by
  induction h generalizing l outer with
  | nil => exact ⟨trivial, l, rfl⟩
  | @select p h =>
    have hnext : ∃ l', next (l :: outer) p = l' :: outer := by
      cases p <;> cases h <;> cases l <;> exact ⟨_, rfl⟩
    obtain ⟨l', hl'⟩ := hnext
    exact ⟨⟨by rw [hl']; nofun, trivial⟩, l', by rw [after_cons, hl', after_nil]⟩
  | flat h ho =>
    have hnext := next_flat h ho (l :: outer)
    exact ⟨⟨by rw [hnext]; nofun, trivial⟩, l.fill, by rw [after_cons, hnext]; rfl⟩
  | @container p q inner hp _ hq ih =>
    -- the container is closed into the one around it, which stays open
    obtain ⟨l₁, -, hopen⟩ := next_open hp (l :: outer)
    obtain ⟨hstays, l₂, hafter⟩ := ih l₁ (l :: outer)
    have hclose : next (l₂ :: l :: outer) q = l.fill :: outer := next_close hq _
    refine ⟨?_, l.fill, ?_⟩
    · rw [List.cons_append]
      refine ⟨by rw [hopen]; nofun, ?_⟩
      rw [hopen]
      refine staysOpen_append.mpr ⟨hstays, ?_, trivial⟩
      rw [hafter, hclose]
      nofun
    · rw [List.cons_append, after_cons, hopen, after_append, hafter, after_cons, hclose, after_nil]
  | append _ _ ih₁ ih₂ =>
    obtain ⟨hstays₁, l₁, hafter₁⟩ := ih₁ l outer
    obtain ⟨hstays₂, l₂, hafter₂⟩ := ih₂ l₁ outer
    refine ⟨staysOpen_append.mpr ⟨hstays₁, ?_⟩, l₂, ?_⟩
    · rwa [hafter₁]
    · rw [after_append, hafter₁, hafter₂]

/-- One element leaves nothing open. -/
theorem Whole.after_eq {ps : List Push} (h : Whole ps) (levels : List Level) :
    after levels ps = complete levels := by
  cases h with
  | flat h ho => rw [after_cons, next_flat h ho, after_nil]
  | container hp hi hq =>
    obtain ⟨l, -, hopen⟩ := next_open hp levels
    obtain ⟨-, l', hafter⟩ := hi.staysOpen l levels
    rw [List.cons_append, after_cons, hopen, after_append, hafter, after_cons, next_close hq]
    rfl

end Push

/-! ### The pushes of values -/

namespace Value

open Push

mutual

/-- The pushes of a value make one element. -/
theorem whole_pushes : ∀ v : Value, Whole v.pushes
  | .null => .flat (.inl rfl) rfl
  | .bool _ | .int _ | .real _ | .complex _ | .datetime _ _ | .timedelta _ _ | .string _
  | .bytes _ => .flat (.inr ⟨_, rfl⟩) rfl
  | .list items => .container rfl (balanced_itemPushes items) rfl
  | .tuple items => .container rfl (balanced_slotPushes 0 items) rfl
  | .record _ fields => .container rfl (balanced_fieldPushes fields) rfl
termination_by structural v => v

theorem balanced_itemPushes : ∀ items : List Value, Balanced (itemPushes items)
  | [] => .nil
  | v :: vs => .append (whole_pushes v).balanced (balanced_itemPushes vs)
termination_by structural items => items

theorem balanced_slotPushes : ∀ (i : Nat) (items : List Value), Balanced (slotPushes i items)
  | _, [] => .nil
  | i, v :: vs =>
    .append (.append (.select rfl) (whole_pushes v).balanced) (balanced_slotPushes (i + 1) vs)
termination_by structural _ items => items

theorem balanced_fieldPushes :
    ∀ fields : List (String × Value), Balanced (fieldPushes fields)
  | [] => .nil
  | (_, v) :: rest =>
    .append (.append (.select rfl) (whole_pushes v).balanced) (balanced_fieldPushes rest)
termination_by structural fields => fields

end

end Value

end Columnar
