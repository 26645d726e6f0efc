import Columnar.Proofs.Column.Below
import Columnar.Proofs.Snapshot

/-!
# Builders only generalize

Whatever is pushed into a builder, its form only becomes more general, at the root and at every
node below.  Clearing keeps the tree with all its kinds.  So the kind of the root goes one way
only, over any calls: from nothing to one class of elements, with numbers getting wider, to
several classes, to elements that may be missing.

Annotations that a caller sets belong to the builder and stand at the outermost node, whichever
that is.  When a column is put into an option or a union, they stay behind at the new node: of
lists that were annotated as strings, or records that were given a name in this way, the form
below the new node tells no longer.

## Main definitions

* `ColumnKind.WidensTo` — the order of the kinds.
* `Shape`, `Column.shape` — a column without its elements.

## Main results

* `Column.shape_clear` — clearing keeps the shape.
* `Builder.pushes_widen` — **forms only widen, and so do the kinds of the root.**
-/

namespace Columnar

/-! ### The order of the kinds -/

namespace ColumnKind

/-- How far a kind has come: from nothing, by one class of elements and several classes, to
elements that may be missing. -/
def level : ColumnKind → Nat
  | unknown => 0
  | union => 2
  | option => 3
  | _ => 1

theorem level_lt_option {k : ColumnKind} (h : k ≠ .option) : k.level < level .option := by
  cases k with
  | option => exact absurd rfl h
  | _ => decide

/-- A kind is another one, or what it can become. -/
inductive WidensTo : ColumnKind → ColumnKind → Prop
  /-- The same kind. -/
  | same (k : ColumnKind) : WidensTo k k
  /-- A kind that has come further. -/
  | further {k k' : ColumnKind} (h : k.level < k'.level) : WidensTo k k'
  /-- Integers as reals. -/
  | int64_float64 : WidensTo .int64 .float64
  /-- Integers as complex numbers. -/
  | int64_complex128 : WidensTo .int64 .complex128
  /-- Reals as complex numbers. -/
  | float64_complex128 : WidensTo .float64 .complex128

namespace WidensTo

variable {k k' k'' : ColumnKind}

theorem level_le (h : k.WidensTo k') : k.level ≤ k'.level := by
  cases h with
  | further h => exact Nat.le_of_lt h
  | _ => exact Nat.le_refl _

theorem trans (h : k.WidensTo k') (h' : k'.WidensTo k'') : k.WidensTo k'' := by
  cases h with
  | same => exact h'
  | further h => exact .further (Nat.lt_of_lt_of_le h h'.level_le)
  | int64_float64 =>
    cases h' with
    | same => exact .int64_float64
    | further h' => exact .further h'
    | float64_complex128 => exact .int64_complex128
  | int64_complex128 =>
    cases h' with
    | same => exact .int64_complex128
    | further h' => exact .further h'
  | float64_complex128 =>
    cases h' with
    | same => exact .float64_complex128
    | further h' => exact .further h'

end WidensTo

end ColumnKind

/-! ### Columns without elements -/

/-- A column without its elements: at every node the kind, the class of the elements, the keys
of the fields, and the nodes below. -/
inductive Shape
  /-- A node. -/
  | node (kind : ColumnKind) (class? : Option ElementClass) (keys : List String)
      (children : List Shape)

namespace Column

mutual

/-- The shape of a column. -/
def shape : Column → Shape
  | .option _ content => .node .option none [] [shape content]
  | .list _ content _ => .node .list (some .list) [] [shape content]
  | .tuple slots _ _ => .node .tuple (some (.tuple slots.length)) [] (shapes slots)
  | .record name fields _ _ _ _ =>
    .node .record (some (.record name)) (fields.map Prod.fst) (fieldShapes fields)
  | .union _ _ children _ => .node .union none [] (shapes children)
  | c => .node c.kind c.class? [] []

/-- The shapes of columns. -/
def shapes : List Column → List Shape
  | [] => []
  | c :: cs => shape c :: shapes cs

/-- The shapes of the columns of fields. -/
def fieldShapes : List (String × Column) → List Shape
  | [] => []
  | (_, c) :: rest => shape c :: fieldShapes rest

end

theorem shapes_eq (cs : List Column) : shapes cs = cs.map shape := by
  induction cs with
  | nil => rfl
  | cons c cs ih => rw [shapes, ih, List.map_cons]

theorem fieldShapes_eq (fields : List (String × Column)) :
    fieldShapes fields = (columnsOf fields).map shape := by
  induction fields with
  | nil => rfl
  | cons f rest ih =>
    rw [fieldShapes, ih]
    rfl

/-- **Clearing keeps the shape**: the kind, the class with its arity or name, the fields and the
children of every node. -/
theorem shape_clear (c : Column) : c.clear.shape = c.shape := by
  induction c using Column.induct with
  | node c ih =>
    have hall : ∀ cs : List Column, cs = c.children → (cs.map clear).map shape = cs.map shape := by
      rintro cs rfl
      rw [List.map_map]
      exact List.map_congr_left ih
    cases c with
    | unknown | bool | int64 | float64 | complex128 | string => rfl
    | time kind unit counts => cases kind <;> rfl
    | option index content =>
      rw [clear, shape, shape, ih content (List.mem_singleton_self _)]
    | list offsets content isOpen =>
      rw [clear, shape, shape, ih content (List.mem_singleton_self _)]
    | tuple slots n filling =>
      rw [clear, shape, shape, clearAll_eq, List.length_map, shapes_eq, shapes_eq, hall slots rfl]
    | record name fields n filling settled declared =>
      rw [clear, shape, shape, keys_clearFields, fieldShapes_eq, fieldShapes_eq,
        columnsOf_clearFields, hall (columnsOf fields) rfl]
    | union tags index children current =>
      rw [clear, shape, shape, clearAll_eq, shapes_eq, shapes_eq, hall children rfl]

variable {o : Options} {p : Push}

/-! ### Kinds -/

theorem level_of_class? {c : Column} {k : ElementClass} (h : c.class? = some k) :
    c.kind.level = 1 := by
  cases c with
  | unknown | option | union => cases h
  | time kind => cases kind <;> rfl
  | _ => rfl

/-- An element of the own class widens numbers at most. -/
theorem kind_accept {c : Column} {k : ElementClass} (hp : p.elementClass? = some k)
    (hk : c.class? = some k) : c.kind.WidensTo (c.accept p).kind := by
  cases c with
  | unknown | option | union => cases hk
  | int64 vs =>
    cases hk
    cases p with
    | int => exact .same _
    | real => exact .int64_float64
    | complex => exact .int64_complex128
    | _ => cases hp
  | float64 vs =>
    cases hk
    cases p with
    | int | real => exact .same _
    | complex => exact .float64_complex128
    | _ => cases hp
  | time kind unit vs => cases kind <;> cases p <;> exact .same _
  | _ => cases p <;> exact .same _

/-- A push that is taken leads to a kind that has come further, or keeps the kind. -/
theorem Takes.kind_widensTo {c c' : Column} (h : Takes o c p c') : c.kind.WidensTo c'.kind := by
  cases h with
  | unknown_null => exact .same _
  | unknown_first n hp =>
    unfold afterNulls
    split
    · refine .further ?_
      rw [level_of_class? (class?_first hp)]
      exact Nat.zero_lt_one
    · exact .further (ColumnKind.level_lt_option nofun)
  | option_null | option_present | option_open => exact .same _
  | first_null _ _ ho => exact .further (ColumnKind.level_lt_option ho)
  | own _ hp hk => exact kind_accept hp hk
  | other _ _ hk =>
    refine .further ?_
    rw [level_of_class? hk]
    exact Nat.lt_succ_self 1
  | _ => exact .same _

end Column

namespace Builder

/-! ### Runs -/

theorem kind_after {b : Builder} (hs : b.root.Sound) (call : Request) :
    b.kind.WidensTo (b.after call).kind := by
  cases call with
  | push p =>
    rcases after_push b p with ⟨b', hpush, hafter⟩ | ⟨-, hafter⟩
    · rw [hafter]
      exact (Column.takes_of_push hs (push_eq_ok hpush).1).kind_widensTo
    · rw [hafter]
      exact .same _
  | clear =>
    change b.root.kind.WidensTo b.root.clear.kind
    rw [Column.kind_clear]
    exact .same _
  | finalize | setParameter => exact .same _

theorem kind_run {b : Builder} (hs : b.root.Sound) (calls : List Request) :
    b.kind.WidensTo (b.run calls).kind := by
  induction calls generalizing b with
  | nil => exact .same _
  | cons call calls ih => exact (kind_after hs call).trans (ih (sound_after hs call))

/-- A push keeps the annotations and widens the form, if it does not leave the builder as it is. -/
theorem below_push {b : Builder} (hs : b.root.Sound) (p : Push) :
    (b.after (.push p)).parameters = b.parameters ∧
      Column.Under b.root (b.after (.push p)).root := by
  rcases after_push b p with ⟨b', hpush, hafter⟩ | ⟨-, hafter⟩
  · rw [hafter]
    exact ⟨(push_eq_ok hpush).2.2, (Column.takes_of_push hs (push_eq_ok hpush).1).under⟩
  · rw [hafter]
    exact ⟨rfl, Column.under_refl _⟩

/-- Pushes keep the annotations and widen the form. -/
theorem below_run {b : Builder} (hs : b.root.Sound) (ps : List Push) :
    (b.run (ps.map .push)).parameters = b.parameters ∧
      Column.Under b.root (b.run (ps.map .push)).root := by
  induction ps generalizing b with
  | nil => exact ⟨rfl, Column.under_refl _⟩
  | cons p ps ih =>
    obtain ⟨hparameters, hunder⟩ := below_push hs p
    obtain ⟨hrest, hunders⟩ := ih (sound_after hs (.push p))
    refine ⟨hrest.trans hparameters, ?_⟩
    intro partition ps₁ ps₂ next next' hps₁ hps₂
    exact (hunder partition ps₁ ps₂ next next' hps₁ hps₂).trans
      (hunders partition ps₂ ps₂ next' next' hps₂ hps₂)

/-- **Forms only widen.**  From any state of a builder on, pushes, taken or refused, lead to a
form at least as general as before, at every node; that is the form as it is emitted if nobody has
annotated the root as strings or records, and in any case the form without annotations that were
set.  Clearing keeps the kind, the fields, the arity and the children of every node; and over any
calls the kind of the root only goes further. -/
theorem pushes_widen (o : Options) (calls : List Request) (ps : List Push) (partition : String) :
    let b := (new o).run calls
    let b' := b.run (ps.map .push)
    (b.root.layout partition [] 0).form.Below (b'.root.layout partition [] 0).form ∧
      (Plain b.parameters → (b.layout partition).form.Below (b'.layout partition).form) ∧
      b.clear.root.shape = b.root.shape ∧
      ∀ more, b.kind.WidensTo (b.run more).kind := by
  intro b b'
  have hs : b.root.Sound := sound_run o calls
  obtain ⟨hparameters, hunder⟩ := below_run hs ps
  refine ⟨hunder _ _ _ _ _ plain_nil plain_nil, ?_, Column.shape_clear b.root, kind_run hs⟩
  intro hplain
  exact hunder _ _ _ _ _ hplain (hparameters ▸ hplain)

/-- Records to which a name is given as an annotation of the root, and then a missing record: the
name is at the option now, and the records below it have none. -/
theorem annotatedName_not_below :
    let b := (new {}).run [.setParameter recordParameter (.string "p"),
      .push (.beginRecord none), .push .endRecord]
    ¬ (b.layout defaultPartition).form.Below
      ((b.after (.push .null)).layout defaultPartition).form := by
  intro b h
  have hbefore : (b.layout defaultPartition).form
      = .record [] (some []) ⟨[(recordParameter, .string "p")], some "node0"⟩ := rfl
  have hafter : ((b.after (.push .null)).layout defaultPartition).form
      = .option .i64 (.record [] (some []) ⟨[], some "node1"⟩)
        ⟨[(recordParameter, .string "p")], some "node0"⟩ := rfl
  rw [hbefore, hafter] at h
  cases h with
  | inOption h => cases h.recordName?_eq

/-- Numbers in lists get wider, a text joins the lists, and an element is missing, with a close
that is refused among the pushes. -/
theorem pushes_widen_lists :
    let b := (new {}).run [.push .beginList, .push (.int 1), .push .endList]
    let b' := b.run ([.beginList, .real .one, .endList, .endTuple, .text "a", .null].map .push)
    Plain b.parameters ∧ (b.layout "0").form.Below (b'.layout "0").form ∧
      b.kind = .list ∧ b'.kind = .option ∧ b.kind.WidensTo b'.kind := by
  intro b b'
  obtain ⟨-, hforms, -, hkinds⟩ := pushes_widen {}
    [.push .beginList, .push (.int 1), .push .endList]
    [.beginList, .real .one, .endList, .endTuple, .text "a", .null] "0"
  exact ⟨plain_nil, hforms plain_nil, rfl, rfl, hkinds _⟩

end Builder

end Columnar
