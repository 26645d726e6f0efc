import Mathlib.Data.Finset.Insert
import Columnar.Push

/-!
# The stack of open containers

What pushes may follow one another is told by a stack machine that knows neither columns nor
values.  It has a level for each open container, the innermost first; a level of a tuple or
of a record knows which slot is selected and which slots hold a value already.

## Main definitions

* `Level` — an open container.
* `Level.allows` — whether a push may come next.
* `Level.next`, `Level.after` — the levels after a push, and after several.
* `Level.Step` — a step of the machine.

## Main results

* `Level.Step.inside` — a push concerns the innermost level alone, and the one around it if
  the innermost is closed.
-/

namespace Columnar

/-- An open container, as far as it decides on the pushes that may come next. -/
inductive Level
  /-- A list. -/
  | list
  /-- A tuple of a number of slots, with the selected one and those that hold a value. -/
  | tuple (arity : Nat) (selected : Option Nat) (filled : Finset Nat)
  /-- A record, with the selected field and those that hold a value. -/
  | record (selected : Option String) (filled : Finset String)
  deriving DecidableEq

namespace Push

variable {p : Push}

/-- A push that is a missing value or begins an element. -/
abbrev Begins (p : Push) : Prop := p = .null ∨ ∃ k, p.elementClass? = some k

theorem selects?_of_begins (h : p.Begins) : p.selects? = none := by
  rcases h with rfl | ⟨k, hk⟩
  · rfl
  · cases p <;> first | rfl | cases hk

theorem closes?_of_begins (h : p.Begins) : p.closes? = none := by
  rcases h with rfl | ⟨k, hk⟩
  · rfl
  · cases p <;> first | rfl | cases hk

theorem closes?_of_selects (h : p.selects?.isSome) : p.closes? = none := by
  cases p <;> first | rfl | cases h

theorem opens?_of_selects (h : p.selects?.isSome) : p.opens? = none := by
  cases p <;> first | rfl | cases h

theorem opens?_of_closes (h : p.closes?.isSome) : p.opens? = none := by
  cases p <;> first | rfl | cases h

/-- The code that stands for no unit of time. -/
def unitCode? : Push → Option String
  | unknownUnit _ code => some code
  | _ => none

theorem unitCode?_of_begins (h : p.Begins) : p.unitCode? = none := by
  rcases h with rfl | ⟨k, hk⟩
  · rfl
  · cases p <;> first | rfl | cases hk

/-- What neither selects nor closes begins an element, if its unit is known. -/
theorem begins_of_none (hs : p.selects? = none) (hc : p.closes? = none)
    (hp : p.unitCode? = none) : p.Begins := by
  cases p with
  | null => exact .inl rfl
  | unknownUnit => cases hp
  | index | field => cases hs
  | endList | endTuple | endRecord => cases hc
  | _ => exact .inr ⟨_, rfl⟩

end Push

namespace Level

/-- The kind of the container. -/
def container : Level → Container
  | list => .list
  | tuple _ _ _ => .tuple
  | record _ _ => .record

/-- Whether the container takes an element: a list always does, and a tuple or a record does
if a slot is selected that holds no value. -/
def hasRoom : Level → Bool
  | list => true
  | tuple _ (some i) filled => decide (i ∉ filled)
  | record (some key) filled => decide (key ∉ filled)
  | _ => false

/-- The container with one more element, in the selected slot. -/
def fill : Level → Level
  | tuple n (some i) filled => tuple n (some i) (insert i filled)
  | record (some key) filled => record (some key) (insert key filled)
  | l => l

/-- The level of a container that a push opens. -/
def opened? : Push → Option Level
  | .beginList => some list
  | .beginTuple n => some (tuple n none ∅)
  | .beginRecord _ => some (record none ∅)
  | _ => none

/-- Whether an element may begin.  Outside of all containers it always may. -/
def takesElement : List Level → Bool
  | [] => true
  | l :: _ => l.hasRoom

/-- The levels after an element is complete. -/
def complete : List Level → List Level
  | [] => []
  | l :: outer => l.fill :: outer

/-- Whether a push selects a slot that the innermost container has and that holds no value. -/
def canSelect : List Level → Push → Bool
  | tuple n _ filled :: _, .index i => decide (i < n ∧ i ∉ filled)
  | record _ filled :: _, .field key _ => decide (key ∉ filled)
  | _, _ => false

/-- The levels after a slot is selected. -/
def select : List Level → Push → List Level
  | tuple n _ filled :: outer, .index i => tuple n (some i) filled :: outer
  | record _ filled :: outer, .field key _ => record (some key) filled :: outer
  | levels, _ => levels

/-- Whether a push may come next.  Which fields a record is known to have is not asked. -/
def allows (levels : List Level) (p : Push) : Bool :=
  if p.selects?.isSome then canSelect levels p
  else
    match p.closes? with
    | some container => decide (levels.head?.map Level.container = some container)
    | none => takesElement levels

/-- The levels after a push that is allowed. -/
def next (levels : List Level) (p : Push) : List Level :=
  if p.selects?.isSome then select levels p
  else if p.closes?.isSome then complete levels.tail
  else
    match opened? p with
    | some l => l :: levels
    | none => complete levels

/-- A step of the stack machine: the push is allowed and leads from one stack to the other. -/
def Step (before : List Level) (p : Push) (after : List Level) : Prop :=
  allows before p = true ∧ after = next before p

/-- The levels after pushes one after another. -/
def after (levels : List Level) (ps : List Push) : List Level := ps.foldl next levels

@[simp] theorem after_nil (levels : List Level) : after levels [] = levels := rfl

@[simp] theorem after_cons (levels : List Level) (p : Push) (ps : List Push) :
    after levels (p :: ps) = after (next levels p) ps := rfl

@[simp] theorem after_append (levels : List Level) (ps qs : List Push) :
    after levels (ps ++ qs) = after (after levels ps) qs := List.foldl_append

@[simp] theorem complete_eq_nil {levels : List Level} : complete levels = [] ↔ levels = [] := by
  cases levels <;> simp [complete]

/-! ### Pushes into inner containers -/

theorem allows_of_begins {p : Push} (h : p.Begins) (levels : List Level) :
    allows levels p = takesElement levels := by
  rw [allows, Push.selects?_of_begins h, Push.closes?_of_begins h]
  rfl

/-- Outside of all containers an element may begin, and nothing else. -/
theorem allows_nil_iff {p : Push} (hp : p.unitCode? = none) : allows [] p = true ↔ p.Begins := by
  constructor
  · intro h
    cases p with
    | unknownUnit => cases hp
    | index | field | endList | endTuple | endRecord => cases h
    | _ => exact Push.begins_of_none rfl rfl rfl
  · intro h
    exact allows_of_begins h []

/-- In a container, what neither closes it nor selects in it begins an element in the selected
slot. -/
theorem allows_cons_iff {l : Level} {p : Push} (outer : List Level) (hp : p.unitCode? = none)
    (hs : p.selects? ≠ some l.container) (hc : p.closes? ≠ some l.container) :
    allows (l :: outer) p = true ↔ p.Begins ∧ l.hasRoom = true := by
  constructor
  · intro h
    have hb : p.Begins := by
      cases p with
      | unknownUnit => cases hp
      | index | field => cases l <;> first | exact absurd rfl hs | cases h
      | endList | endTuple | endRecord => cases l <;> first | exact absurd rfl hc | cases h
      | _ => exact Push.begins_of_none rfl rfl rfl
    rw [allows_of_begins hb] at h
    exact ⟨hb, h⟩
  · rintro ⟨hb, hroom⟩
    rw [allows_of_begins hb]
    exact hroom

/-- What comes next inside open containers does not depend on those around them. -/
theorem allows_append {levels : List Level} (h : levels ≠ []) (outer : List Level) (p : Push) :
    allows (levels ++ outer) p = allows levels p := by
  obtain ⟨l, inner, rfl⟩ := List.exists_cons_of_ne_nil h
  cases l <;> cases p <;> rfl

/-- A push inside a container: the container has one more element once nothing is open in it
any more. -/
theorem next_append {levels : List Level} {p : Push} (h : levels ≠ [] ∨ p.Begins)
    (outer : List Level) :
    next (levels ++ outer) p
      = if next levels p = [] then complete outer else next levels p ++ outer := by
  cases levels with
  | nil =>
    have hp := h.resolve_left (by simp)
    rw [next, next, Push.selects?_of_begins hp, Push.closes?_of_begins hp]
    cases opened? p <;> simp [complete]
  | cons l inner =>
    by_cases hs : p.selects?.isSome
    · rw [next, next, if_pos hs, if_pos hs]
      cases l <;> cases p <;> simp [select]
    · rw [next, next, if_neg hs, if_neg hs]
      split
      · cases inner <;> simp [complete]
      · cases opened? p <;> simp [complete]

/-- A missing value or the beginning of an element outside of all containers. -/
theorem step_of_begins {p : Push} (h : p.Begins) : Step [] p (opened? p).toList := by
  refine ⟨allows_of_begins h [], ?_⟩
  rw [next, Push.selects?_of_begins h, Push.closes?_of_begins h]
  cases opened? p <;> rfl

/-- A step inside a container. -/
theorem Step.inside {before after : List Level} {p : Push} (h : Step before p after) (l : Level)
    (hp : before ≠ [] ∨ p.Begins) (hroom : before = [] → l.hasRoom = true) :
    Step (before ++ [l]) p (after ++ [if after = [] then l.fill else l]) := by
  obtain ⟨hallows, rfl⟩ := h
  refine ⟨?_, ?_⟩
  · by_cases hb : before = []
    · subst hb
      rw [List.nil_append, allows_of_begins (hp.resolve_left (by simp))]
      exact hroom rfl
    · rw [allows_append hb, hallows]
  · rw [next_append hp]
    by_cases ha : next before p = []
    · simp [ha, complete]
    · simp [ha]

end Level

end Columnar
