import Columnar.Proofs.Column.Taken
import Columnar.Proofs.Run

/-!
# What a builder holds

A builder holds what its calls have assembled since it was last cleared.  A push that is
taken is assembled, one that is refused is not, and no other call but clearing changes what
is held.

## Main definitions

* `Builder.Holds` — a builder holds an assembly.
* `Builder.assembled` — what calls one after another assemble.

## Main results

* `Builder.Holds.pushAll` — a builder that takes pushes holds what they assemble.
* `Builder.holds_run` — **after any calls, a builder holds what they assembled.**
-/

namespace Columnar

/-! ### The texts of values -/

theorem isText_enclosed {first last : Push} {ps : List Push} (hfirst : first.IsText)
    (h : ∀ p ∈ ps, p.IsText) (hlast : last.IsText) : ∀ p ∈ first :: ps ++ [last], p.IsText := by
  intro p hp
  rw [List.cons_append, List.mem_cons, List.mem_append, List.mem_singleton] at hp
  rcases hp with rfl | hp | rfl
  · exact hfirst
  · exact h p hp
  · exact hlast

mutual

/-- Every text among the pushes of a value is given by the bytes that encode it. -/
theorem Value.isText_pushes : ∀ v : Value, ∀ p ∈ v.pushes, p.IsText
  | .null | .bool _ | .int _ | .real _ | .complex _ | .datetime _ _ | .timedelta _ _
  | .bytes _ => by
    intro p hp
    rw [List.mem_singleton.mp hp]
    trivial
  | .string s => by
    intro p hp
    rw [List.mem_singleton.mp hp]
    exact congrArg Utf8.encodeString (Utf8.lossy_encodeString s)
  | .list items => by
    rw [Value.pushes]
    exact isText_enclosed trivial (isText_itemPushes items) trivial
  | .tuple items => by
    rw [Value.pushes]
    exact isText_enclosed trivial (isText_slotPushes items 0) trivial
  | .record name fields => by
    rw [Value.pushes]
    exact isText_enclosed trivial (isText_fieldPushes fields) trivial
termination_by structural v => v

theorem Value.isText_itemPushes : ∀ vs : List Value, ∀ p ∈ Value.itemPushes vs, p.IsText
  | [] => nofun
  | v :: vs => by
    intro p hp
    rcases List.mem_append.mp hp with hp | hp
    · exact isText_pushes v p hp
    · exact isText_itemPushes vs p hp
termination_by structural vs => vs

theorem Value.isText_slotPushes :
    ∀ (vs : List Value) (i : Nat), ∀ p ∈ Value.slotPushes i vs, p.IsText
  | [], _ => nofun
  | v :: vs, i => by
    intro p hp
    simp only [Value.slotPushes, List.cons_append, List.mem_cons, List.mem_append] at hp
    rcases hp with rfl | hp | hp
    · trivial
    · exact isText_pushes v p hp
    · exact isText_slotPushes vs (i + 1) p hp
termination_by structural vs => vs

theorem Value.isText_fieldPushes :
    ∀ fields : List (String × Value), ∀ p ∈ Value.fieldPushes fields, p.IsText
  | [] => nofun
  | (key, v) :: rest => by
    intro p hp
    simp only [Value.fieldPushes, List.cons_append, List.mem_cons, List.mem_append] at hp
    rcases hp with rfl | hp | hp
    · trivial
    · exact isText_pushes v p hp
    · exact isText_fieldPushes rest p hp
termination_by structural fields => fields

end

namespace Builder

/-! ### Holding -/

/-- The tree of a builder is sound and holds an assembly; if `fresh`, it is no wider than
what it holds asks for. -/
structure Holds (fresh : Prop) (b : Builder) (s : Assembly) : Prop where
  /-- Soundness. -/
  sound : b.root.Sound
  /-- What is complete and what is under way. -/
  fits : b.root.Fits b.options fresh s.done s.stack

variable {fresh : Prop} {b b' : Builder} {s : Assembly} {p : Push}

theorem holds_new (fresh : Prop) (o : Options) : (new o).Holds fresh .empty :=
  ⟨Column.sound_unknown 0, .unknown 0⟩

theorem Holds.push (h : b.Holds fresh s) (htext : p.IsText) (hpush : b.push p = .ok b') :
    b'.Holds fresh (s.take p) := by
  obtain ⟨hroot, hoptions, -⟩ := push_eq_ok hpush
  have htakes := Column.takes_of_push h.sound hroot
  refine ⟨h.sound.takes htakes, ?_⟩
  rw [hoptions]
  exact Column.Fits.takes htakes htext h.sound h.fits

/-- Pushes that are all taken are all assembled. -/
theorem Holds.pushAll {ps : List Push} (h : b.Holds fresh s) (htext : ∀ p ∈ ps, p.IsText)
    (hpush : b.pushAll ps = .ok b') : b'.Holds fresh (s.takeAll ps) := by
  induction ps generalizing b s with
  | nil =>
    cases hpush
    exact h
  | cons p ps ih =>
    cases hp : b.push p with
    | error r =>
      rw [pushAll_cons_error hp] at hpush
      cases hpush
    | ok b₁ =>
      rw [pushAll_cons_ok hp] at hpush
      exact ih (h.push (htext p List.mem_cons_self) hp)
        (fun q hq => htext q (List.mem_cons_of_mem _ hq)) hpush

/-- Values that are all taken are held, and nothing is under way after them. -/
theorem Holds.extend {vs : List Value} (h : (new o).extend vs = .ok b) :
    b.Holds fresh ⟨vs, []⟩ := by
  have hholds := (holds_new fresh o).pushAll (Value.isText_itemPushes vs) h
  rwa [Assembly.empty, Assembly.takeAll_itemPushes, List.nil_append] at hholds

/-! ### Runs -/

/-- What is assembled after a call. -/
def assembledAfter (b : Builder) (s : Assembly) : Request → Assembly
  | .push p =>
    match b.push p with
    | .ok _ => s.take p
    | .error _ => s
  | .clear => .empty
  | .finalize => s
  | .setParameter _ _ => s

/-- What is assembled after calls one after another. -/
def assembled (b : Builder) (s : Assembly) : List Request → Assembly
  | [] => s
  | call :: calls => (b.after call).assembled (b.assembledAfter s call) calls

/-- The texts among pushes are given by the bytes that encode them. -/
def Request.IsText : Request → Prop
  | .push p => p.IsText
  | _ => True

theorem Holds.after (h : b.Holds False s) {call : Request} (htext : call.IsText) :
    (b.after call).Holds False (b.assembledAfter s call) := by
  cases call with
  | push p =>
    -- a refused push is not assembled, and the builder stays as it is
    rcases after_push b p with ⟨b', hpush, hafter⟩ | ⟨⟨r, hpush⟩, hafter⟩
    · rw [hafter, assembledAfter, hpush]
      exact h.push htext hpush
    · rw [hafter, assembledAfter, hpush]
      exact h
  | clear => exact ⟨h.sound.clear, Column.fits_clear _ _⟩
  | finalize => exact ⟨h.sound, h.fits⟩
  | setParameter name value => exact ⟨h.sound, h.fits⟩

/-- **After any calls, a builder holds what they assembled** since it was last cleared. -/
theorem holds_run {calls : List Request} (h : b.Holds False s)
    (htext : ∀ call ∈ calls, call.IsText) : (b.run calls).Holds False (b.assembled s calls) := by
  induction calls generalizing b s with
  | nil => exact h
  | cons call calls ih =>
    exact ih (h.after (htext call List.mem_cons_self))
      fun q hq => htext q (List.mem_cons_of_mem _ hq)

end Builder

end Columnar
