import Columnar.Builder
import Columnar.Proofs.Column.Nodes

/-!
# Refused pushes

A refusal carries the state that is there after it.  However deep in a column a push is
refused, that state is the one from before the push, at every level on the way up: no
element, slot, field or child stays behind, and nothing that was open is closed.

## Main definitions

* `Pushed.Keeps` — an outcome that is no refusal, or one after which a given state is there.

## Main results

* `Column.keeps_push` — a refusal by a column gives the column back.
* `Builder.refusal_is_atomic` — **a refused push changes nothing**, at the root and below
  it, and a finalized builder refuses every push.
-/

namespace Columnar

namespace Pushed

variable {α β : Type}

/-- If the outcome is a refusal, the state after it is `a`. -/
def Keeps (a : α) (x : Pushed α) : Prop := ∀ r, x = .error r → r.state = a

theorem keeps_ok (a b : α) : Keeps a (.ok b) := by
  intro r h
  cases h

theorem keeps_error (a : α) (e : PushError) : Keeps a (.error ⟨a, e⟩) := by
  intro r h
  cases h
  rfl

theorem Keeps.inside {a : α} {x : Pushed α} (h : Keeps a x) (f : α → β) :
    Keeps (f a) (x.inside f) := by
  intro r hr
  cases x with
  | ok b => cases hr
  | error s =>
    cases hr
    exact congrArg f (h s rfl)

end Pushed

namespace Column

open Pushed

theorem keeps_refuse (c : Column) (p : Push) (cause : PushCause) : Keeps c (refuse c p cause) :=
  keeps_error c _

theorem setField_self : ∀ (fields : List (String × Column)) {i : Nat} {c : Column},
    (columnsOf fields)[i]? = some c → setField fields i c = fields
  | [], _, _, _ => rfl
  | (_, _) :: _, 0, _, h => by
    simp only [columnsOf, List.map_cons, List.getElem?_cons_zero, Option.some.injEq] at h
    rw [setField, h]
  | f :: rest, i + 1, c, h => by
    rw [setField, setField_self rest]
    simpa [columnsOf] using h

theorem keeps_pushAt {o : Options} {p : Push} {cs : List Column}
    (h : ∀ c ∈ cs, Keeps c (push o c p)) (i : Nat) : Keeps cs (pushAt o cs i p) := by
  rw [pushAt_eq]
  cases hc : cs[i]? with
  | none => exact keeps_ok _ _
  | some c =>
    have hset : cs.set i c = cs := by
      obtain ⟨hi, rfl⟩ := List.getElem?_eq_some_iff.mp hc
      exact List.set_getElem_self hi
    have hk := (h c (List.mem_of_getElem? hc)).inside (cs.set i)
    rwa [hset] at hk

theorem keeps_pushField {o : Options} {p : Push} {fields : List (String × Column)}
    (h : ∀ c ∈ columnsOf fields, Keeps c (push o c p)) (i : Nat) :
    Keeps fields (pushField o fields i p) := by
  rw [pushField_eq]
  cases hc : (columnsOf fields)[i]? with
  | none => exact keeps_ok _ _
  | some c =>
    have hk := (h c (List.mem_of_getElem? hc)).inside (setField fields i)
    rwa [setField_self fields hc] at hk

theorem keeps_pushClosed (o : Options) (c : Column) (p : Push) : Keeps c (pushClosed o c p) := by
  unfold pushClosed
  split
  · exact keeps_ok _ _
  · split
    · split <;> exact keeps_ok _ _
    · exact keeps_refuse _ _ _

theorem keeps_selectSlot (slots : List Column) (n : Nat) (filling : Filling) (i : Nat) :
    Keeps (.tuple slots n filling) (selectSlot slots n filling i) := by
  unfold selectSlot
  split
  · exact keeps_refuse _ _ _
  · split
    · exact keeps_refuse _ _ _
    · exact keeps_ok _ _

theorem keeps_selectField (name : Option String) (fields : List (String × Column)) (n : Nat)
    (filling : Filling) (settled declared : Bool) (key : String) (check : Bool) :
    Keeps (.record name fields n filling settled declared)
      (selectField name fields n filling settled declared key check) := by
  unfold selectField
  split
  · split
    · exact keeps_refuse _ _ _
    · exact keeps_ok _ _
  · split
    · exact keeps_refuse _ _ _
    · exact keeps_ok _ _

/-- A refusal by a column gives the column back as it was. -/
theorem keeps_push (o : Options) (c : Column) : ∀ p : Push, Keeps c (push o c p) := by
  induction c using Column.induct with
  | node c ih =>
    intro p
    unfold push
    split
    · exact keeps_refuse _ _ _
    · split
      · exact keeps_ok _ _
      · split
        · exact keeps_ok _ _
        · exact keeps_refuse _ _ _
    · next index content _ =>
      have hk : Keeps content (push o content p) := ih content (List.mem_singleton_self _) p
      split
      · exact hk.inside _
      · split
        · exact keeps_ok _ _
        · split
          · exact keeps_refuse _ _ _
          · -- the index is extended only after the content has taken the push
            cases hc : push o content p with
            | ok content' => exact keeps_ok _ _
            | error r => rw [hc] at hk; exact hk.inside (Column.option index)
    -- the end of the list is never refused, and everything else goes to the items
    · next offsets content _ =>
      split
      · exact keeps_ok _ _
      · exact (ih content (List.mem_singleton_self _) p).inside fun c => Column.list offsets c true
    · next slots n slot _ =>
      have hk : Keeps slots (pushAt o slots (slot.getD 0) p) :=
        keeps_pushAt (fun c hc => ih c hc p) _
      have hin := hk.inside fun slots => Column.tuple slots n (.filling slot)
      split
      · exact hin
      · split
        · exact keeps_selectSlot _ _ _ _
        · exact keeps_ok _ _
        · split
          · exact keeps_refuse _ _ _
          · exact hin
    · next name fields n slot settled declared _ =>
      have hk : Keeps fields (pushField o fields (slot.getD 0) p) :=
        keeps_pushField (fun c hc => ih c hc p) _
      have hin := hk.inside fun fields =>
        Column.record name fields n (.filling slot) settled declared
      split
      · exact hin
      · split
        · exact keeps_selectField _ _ _ _ _ _ _ _
        · exact keeps_ok _ _
        · split
          · exact keeps_refuse _ _ _
          · exact hin
    · next tags index children tag _ =>
      have hk : Keeps children (pushAt o children tag p) :=
        keeps_pushAt (fun c hc => ih c hc p) _
      cases hc : pushAt o children tag p with
      | ok children' => exact keeps_ok _ _
      | error r =>
        rw [hc] at hk
        exact hk.inside fun children => Column.union tags index children (some tag)
    -- tags and places are extended only after the child has taken the push
    · next tags index children _ =>
      split
      · exact keeps_pushClosed _ _ _
      · split
        · next tag _ =>
          have hk : Keeps children (pushAt o children tag p) :=
            keeps_pushAt (fun c hc => ih c hc p) _
          cases hc : pushAt o children tag p with
          | ok children' => exact keeps_ok _ _
          | error r =>
            rw [hc] at hk
            exact hk.inside fun children => Column.union tags index children none
        · split
          · exact keeps_refuse _ _ _
          · exact keeps_ok _ _
    · exact keeps_pushClosed _ _ _

end Column

namespace Builder

open Pushed

/-- A refused push gives the builder back as it was. -/
theorem keeps_push (b : Builder) (p : Push) : Keeps b (b.push p) := by
  unfold push
  cases b.cause? p with
  | some cause => exact keeps_error _ _
  | none =>
    obtain ⟨options, root, parameters, isFinalized, depth⟩ := b
    have hk := Column.keeps_push options root p
    simp only
    cases hc : root.push options p with
    | ok root' => exact keeps_ok _ _
    | error r =>
      rw [hc] at hk
      exact hk.inside fun root => Builder.mk options root parameters isFinalized depth

theorem push_of_isFinalized {b : Builder} (h : b.isFinalized = true) (p : Push) :
    b.push p = .error ⟨b, ⟨p.word, .finalized⟩⟩ := by
  have hc : b.cause? p = some .finalized := by rw [cause?, if_pos h]
  rw [push, hc]

/-- **A refused push changes nothing.**  The builder after it is the builder before it,
with its whole tree, its annotations, its depth and its seal; every column on the way down
is given back likewise; and a finalized builder refuses every push for that reason. -/
theorem refusal_is_atomic :
    (∀ (b : Builder) (p : Push) (r : Refused Builder), b.push p = .error r → r.state = b) ∧
    (∀ (o : Options) (c : Column) (p : Push) (r : Refused Column),
      c.push o p = .error r → r.state = c) ∧
    (∀ (b : Builder) (p : Push), b.isFinalized = true →
      b.push p = .error ⟨b, ⟨p.word, .finalized⟩⟩) :=
  ⟨fun b p r h => keeps_push b p r h, fun o c p r h => Column.keeps_push o c p r h,
    fun _ p h => push_of_isFinalized h p⟩

/-- A builder that has been given a union below a list, in which a tuple is open whose
first slot is filled and selected. -/
def halfFilled : Builder where
  options := default
  root := .list #[0] (.union #[0, 1] #[0, 0]
    [.bool #[true], .tuple [.int64 #[1], .unknown 0] 0 (.filling (some 0))] (some 1)) true
  parameters := []
  isFinalized := false
  depth := 2

/-- A second value for the filled slot is refused three levels below the root, by the
builder and by the column; and a finalized builder refuses the end of the tuple. -/
theorem refusal_is_atomic_halfFilled :
    (∃ r, halfFilled.push (.int 2) = .error r ∧ r.error.cause = .slotAlreadyFilled "0" ∧
      r.state = halfFilled) ∧
    (∃ r, halfFilled.root.push {} (.int 2) = .error r ∧ r.state = halfFilled.root) ∧
    (∃ r, (halfFilled.finalize []).1.push .endTuple = .error r ∧
      r.state = (halfFilled.finalize []).1 ∧ r.error.cause = .finalized) := by
  refine ⟨⟨⟨_, ⟨"integer", .slotAlreadyFilled "0"⟩⟩, rfl, rfl, ?_⟩,
    ⟨⟨_, ⟨"integer", .slotAlreadyFilled "0"⟩⟩, rfl, ?_⟩,
    ⟨⟨_, ⟨"endtuple", .finalized⟩⟩, ?_, rfl, rfl⟩⟩
  · exact refusal_is_atomic.1 halfFilled (.int 2) _ rfl
  · exact refusal_is_atomic.2.1 {} halfFilled.root (.int 2) _ rfl
  · exact refusal_is_atomic.2.2 (halfFilled.finalize []).1 .endTuple rfl

end Builder

end Columnar
