import Columnar.Proofs.Extending
import Columnar.Proofs.Rounding

/-!
# Building does not look at reals

A builder stores reals and turns integers into reals, but never asks what a real is.  So a map
of the reals that leaves those alone that come from integers may be applied before or after:  a
builder that takes the mapped pushes is the mapped builder.

## Main definitions

* `Push.mapReals`, `Value.mapReals`, `Column.mapReals`, `Builder.mapReals` — all reals of a
  push, a value, a column and a builder mapped.
* `KeepsInts` — a map that leaves reals alone that come from integers.

## Main results

* `Column.Takes.mapReals` — a mapped column takes a mapped push.
* `Builder.extend_mapReals` — **a builder that takes mapped values is the mapped builder.**
-/

namespace Columnar

/-! ### Mapped data -/

/-- Both parts of a complex number mapped. -/
def Complex.mapReals (f : Binary64 → Binary64) (z : Complex) : Complex := ⟨f z.re, f z.im⟩

/-- The reals of a push mapped. -/
def Push.mapReals (f : Binary64 → Binary64) : Push → Push
  | .real x => .real (f x)
  | .complex z => .complex (z.mapReals f)
  | p => p

namespace Value

mutual

/-- The reals in a value mapped. -/
def mapReals (f : Binary64 → Binary64) : Value → Value
  | .null => .null
  | .bool b => .bool b
  | .int n => .int n
  | .real x => .real (f x)
  | .complex z => .complex (z.mapReals f)
  | .datetime n unit => .datetime n unit
  | .timedelta n unit => .timedelta n unit
  | .string s => .string s
  | .bytes data => .bytes data
  | .list items => .list (mapRealsItems f items)
  | .tuple items => .tuple (mapRealsItems f items)
  | .record name fields => .record name (mapRealsFields f fields)

/-- The reals in values mapped. -/
def mapRealsItems (f : Binary64 → Binary64) : List Value → List Value
  | [] => []
  | v :: vs => mapReals f v :: mapRealsItems f vs

/-- The reals in the values of fields mapped. -/
def mapRealsFields (f : Binary64 → Binary64) : List (String × Value) → List (String × Value)
  | [] => []
  | (key, v) :: rest => (key, mapReals f v) :: mapRealsFields f rest

end

end Value

namespace Column

mutual

/-- The reals in a column mapped. -/
def mapReals (f : Binary64 → Binary64) : Column → Column
  | .unknown n => .unknown n
  | .option index content => .option index (content.mapReals f)
  | .bool values => .bool values
  | .int64 values => .int64 values
  | .float64 values => .float64 (values.map f)
  | .complex128 values => .complex128 (values.map (Complex.mapReals f))
  | .time kind unit counts => .time kind unit counts
  | .string encoding offsets data => .string encoding offsets data
  | .list offsets content isOpen => .list offsets (content.mapReals f) isOpen
  | .tuple slots n filling => .tuple (mapRealsAll f slots) n filling
  | .record name fields n filling settled declared =>
    .record name (mapRealsFields f fields) n filling settled declared
  | .union tags index children current => .union tags index (mapRealsAll f children) current

/-- The reals in columns mapped. -/
def mapRealsAll (f : Binary64 → Binary64) : List Column → List Column
  | [] => []
  | c :: cs => c.mapReals f :: mapRealsAll f cs

/-- The reals in the columns of fields mapped. -/
def mapRealsFields (f : Binary64 → Binary64) : List (String × Column) → List (String × Column)
  | [] => []
  | (key, c) :: rest => (key, c.mapReals f) :: mapRealsFields f rest

end

theorem mapReals_unknown (f : Binary64 → Binary64) (n : Nat) :
    (Column.unknown n).mapReals f = .unknown n := by
  rw [mapReals]

end Column

/-- The reals in a builder mapped. -/
def Builder.mapReals (f : Binary64 → Binary64) (b : Builder) : Builder :=
  { b with root := b.root.mapReals f }

/-- A map of the reals that leaves those alone that come from integers. -/
def KeepsInts (f : Binary64 → Binary64) : Prop := ∀ n : Int, f (.ofInt n) = .ofInt n

/-! ### Pushes of mapped values -/

section

variable {f : Binary64 → Binary64}

@[simp] theorem Push.elementClass?_mapReals (p : Push) :
    (p.mapReals f).elementClass? = p.elementClass? := by
  cases p <;> rfl

@[simp] theorem Push.opens?_mapReals (p : Push) : (p.mapReals f).opens? = p.opens? := by
  cases p <;> rfl

@[simp] theorem Push.closes?_mapReals (p : Push) : (p.mapReals f).closes? = p.closes? := by
  cases p <;> rfl

theorem Push.depthsAfter_mapReals (depth : Nat) (ps : List Push) :
    depthsAfter depth (ps.map (mapReals f)) = depthsAfter depth ps := by
  induction ps generalizing depth with
  | nil => rfl
  | cons p ps ih =>
    simp only [List.map_cons, depthsAfter_cons, ih, Builder.depthAfter, opens?_mapReals,
      closes?_mapReals]

namespace Value

theorem length_mapRealsItems (vs : List Value) : (mapRealsItems f vs).length = vs.length := by
  induction vs with
  | nil => rfl
  | cons v vs ih => rw [mapRealsItems, List.length_cons, List.length_cons, ih]

mutual

/-- A mapped value nests as deep. -/
theorem depth_mapReals : ∀ v : Value, (v.mapReals f).depth = v.depth
  | .null | .bool _ | .int _ | .real _ | .complex _ | .datetime _ _ | .timedelta _ _ | .string _
  | .bytes _ => rfl
  | .list items => congrArg (· + 1) (itemsDepth_mapReals items)
  | .tuple items => congrArg (· + 1) (itemsDepth_mapReals items)
  | .record _ fields => congrArg (· + 1) (fieldsDepth_mapReals fields)
termination_by structural v => v

theorem itemsDepth_mapReals : ∀ vs : List Value, itemsDepth (mapRealsItems f vs) = itemsDepth vs
  | [] => rfl
  | v :: vs => by
    rw [mapRealsItems, itemsDepth, itemsDepth, depth_mapReals v, itemsDepth_mapReals vs]
termination_by structural vs => vs

theorem fieldsDepth_mapReals : ∀ fields : List (String × Value),
    fieldsDepth (mapRealsFields f fields) = fieldsDepth fields
  | [] => rfl
  | (key, v) :: rest => by
    rw [mapRealsFields, fieldsDepth, fieldsDepth, depth_mapReals v, fieldsDepth_mapReals rest]
termination_by structural fields => fields

end

mutual

/-- The pushes of a mapped value are the mapped pushes. -/
theorem pushes_mapReals : ∀ v : Value, (v.mapReals f).pushes = v.pushes.map (Push.mapReals f)
  | .null | .bool _ | .int _ | .real _ | .complex _ | .datetime _ _ | .timedelta _ _ | .string _
  | .bytes _ => rfl
  | .list items => by
    simp only [mapReals, pushes, itemPushes_mapReals items, List.map_append, List.map_cons]
    rfl
  | .tuple items => by
    simp only [mapReals, pushes, slotPushes_mapReals items 0, length_mapRealsItems,
      List.map_append, List.map_cons]
    rfl
  | .record name fields => by
    simp only [mapReals, pushes, fieldPushes_mapReals fields, List.map_append, List.map_cons]
    rfl
termination_by structural v => v

theorem itemPushes_mapReals : ∀ vs : List Value,
    itemPushes (mapRealsItems f vs) = (itemPushes vs).map (Push.mapReals f)
  | [] => rfl
  | v :: vs => by
    rw [mapRealsItems, itemPushes, itemPushes, pushes_mapReals v, itemPushes_mapReals vs,
      List.map_append]
termination_by structural vs => vs

theorem slotPushes_mapReals : ∀ (vs : List Value) (i : Nat),
    slotPushes i (mapRealsItems f vs) = (slotPushes i vs).map (Push.mapReals f)
  | [], _ => rfl
  | v :: vs, i => by
    rw [mapRealsItems, slotPushes, slotPushes, pushes_mapReals v, slotPushes_mapReals vs (i + 1),
      List.map_append, List.map_cons]
    rfl
termination_by structural vs => vs

theorem fieldPushes_mapReals : ∀ fields : List (String × Value),
    fieldPushes (mapRealsFields f fields) = (fieldPushes fields).map (Push.mapReals f)
  | [] => rfl
  | (key, v) :: rest => by
    rw [mapRealsFields, fieldPushes, fieldPushes, pushes_mapReals v, fieldPushes_mapReals rest,
      List.map_append, List.map_cons]
    rfl
termination_by structural fields => fields

end

end Value

end

/-! ### What does not change -/

namespace Column

variable {f : Binary64 → Binary64}

@[simp] theorem mapRealsAll_eq (cs : List Column) : mapRealsAll f cs = cs.map (mapReals f) := by
  induction cs with
  | nil => rfl
  | cons c cs ih => rw [mapRealsAll, ih, List.map_cons]

@[simp] theorem mapRealsFields_eq (fields : List (String × Column)) :
    mapRealsFields f fields = fields.map fun g => (g.1, g.2.mapReals f) := by
  induction fields with
  | nil => rfl
  | cons g rest ih =>
    obtain ⟨key, c⟩ := g
    rw [mapRealsFields, ih, List.map_cons]

@[simp] theorem kind_mapReals (c : Column) : (c.mapReals f).kind = c.kind := by
  cases c with
  | time kind unit counts => rfl
  | _ => rfl

@[simp] theorem class?_mapReals (c : Column) : (c.mapReals f).class? = c.class? := by
  cases c <;> simp [mapReals, class?]

theorem admits_mapReals (k : ElementClass) (c : Column) :
    admits k (c.mapReals f) = admits k c := by
  rw [Bool.eq_iff_iff, admits_iff, admits_iff, class?_mapReals]

@[simp] theorem isActive_mapReals (c : Column) : (c.mapReals f).isActive = c.isActive := by
  induction c using Column.induct with
  | node c ih =>
    cases c with
    | option index content => exact ih content (List.mem_singleton_self _)
    | _ => rfl

@[simp] theorem length_mapReals (c : Column) : (c.mapReals f).length = c.length := by
  cases c <;> simp [mapReals, length]

@[simp] theorem openTag_mapReals (tag : Nat) (c : Column) :
    openTag tag (c.mapReals f) = openTag tag c := by
  rw [openTag, openTag, isActive_mapReals]

@[simp] theorem findIdx?_admits_mapReals (k : ElementClass) (cs : List Column) :
    (cs.map (mapReals f)).findIdx? (admits k) = cs.findIdx? (admits k) := by
  rw [List.findIdx?_map]
  exact congrArg (fun p => cs.findIdx? p) (funext fun c => admits_mapReals k c)

@[simp] theorem isActiveAt_mapReals (cs : List Column) (i : Nat) :
    isActiveAt (cs.map (mapReals f)) i = isActiveAt cs i := by
  rw [isActiveAt_eq, isActiveAt_eq, List.getElem?_map, Option.map_map]
  exact congrArg (fun g => (cs[i]?.map g).getD false) (funext isActive_mapReals)

@[simp] theorem isSlotActive_mapReals (cs : List Column) (filling : Filling) :
    isSlotActive (cs.map (mapReals f)) filling = isSlotActive cs filling := by
  unfold isSlotActive
  cases filling.slot? with
  | none => rfl
  | some i => exact isActiveAt_mapReals cs i

theorem columnsOf_mapReals (fields : List (String × Column)) :
    columnsOf (fields.map fun g => (g.1, g.2.mapReals f))
      = (columnsOf fields).map (mapReals f) := by
  simp [columnsOf, Function.comp_def]

theorem fieldIndex?_mapReals (fields : List (String × Column)) (key : String) :
    fieldIndex? (fields.map fun g => (g.1, g.2.mapReals f)) key = fieldIndex? fields key := by
  exact fieldIndex?_congr key (by simp [Function.comp_def])

theorem setField_mapReals : ∀ (fields : List (String × Column)) (i : Nat) (c : Column),
    (setField fields i c).map (fun g => (g.1, g.2.mapReals f))
      = setField (fields.map fun g => (g.1, g.2.mapReals f)) i (c.mapReals f)
  | [], _, _ => rfl
  | _ :: _, 0, _ => rfl
  | g :: rest, i + 1, c => by
    rw [setField, List.map_cons, List.map_cons, setField, setField_mapReals rest i c]

/-! ### Mapped steps -/

theorem mapReals_appendNull (c : Column) : c.appendNull.mapReals f = (c.mapReals f).appendNull := by
  cases c <;> simp [appendNull, mapReals, length]

theorem mapReals_fillSlot (row : Nat) (c : Column) :
    (fillSlot row c).mapReals f = fillSlot row (c.mapReals f) := by
  unfold fillSlot
  rw [length_mapReals]
  split
  · exact mapReals_appendNull c
  · rfl

theorem mapReals_fillSlots (row : Nat) (slots : List Column) :
    (fillSlots row slots).map (mapReals f) = fillSlots row (slots.map (mapReals f)) := by
  simp [fillSlots, Function.comp_def, mapReals_fillSlot]

theorem mapReals_fillFields (row : Nat) (fields : List (String × Column)) :
    (fillFields row fields).map (fun g => (g.1, g.2.mapReals f))
      = fillFields row (fields.map fun g => (g.1, g.2.mapReals f)) := by
  simp [fillFields, Function.comp_def, mapReals_fillSlot]

theorem mapReals_afterNulls (n : Nat) (c : Column) :
    (afterNulls n c).mapReals f = afterNulls n (c.mapReals f) := by
  unfold afterNulls
  split <;> rfl

theorem mapReals_addChild (tags index : Array Nat) (children : List Column) (c : Column) :
    (addChild tags index children c).mapReals f
      = addChild tags index (children.map (mapReals f)) (c.mapReals f) := by
  simp [addChild, mapReals, openChild]

theorem mapReals_joinedBy (c other : Column) :
    (c.joinedBy other).mapReals f = (c.mapReals f).joinedBy (other.mapReals f) := by
  rw [joinedBy, mapReals_addChild, joinedBy, length_mapReals]
  rfl

/-- Empty columns have no reals. -/
theorem mapReals_unknowns {fields : List (String × Column)}
    (h : ∀ c ∈ columnsOf fields, c = .unknown 0) :
    fields.map (fun g => (g.1, g.2.mapReals f)) = fields := by
  refine (List.map_congr_left fun g hg => ?_).trans (List.map_id fields)
  obtain ⟨key, c⟩ := g
  have hc : c = .unknown 0 := h c (List.mem_map_of_mem hg)
  rw [hc, mapReals_unknown]
  rfl

theorem mapReals_first (o : Options) (p : Push) :
    (first o p).mapReals f = first o (p.mapReals f) := by
  cases p with
  | real x =>
    show Column.float64 (#[x].map f) = .float64 #[f x]
    rw [List.map_toArray, List.map_singleton]
  | complex z =>
    show Column.complex128 (#[z].map (Complex.mapReals f)) = .complex128 #[z.mapReals f]
    rw [List.map_toArray, List.map_singleton]
  | beginTuple n =>
    have hkeep : (Push.beginTuple n).mapReals f = .beginTuple n := rfl
    rw [hkeep, first_beginTuple]
    simp [mapReals]
  | beginRecord name =>
    have hkeep : (Push.beginRecord name).mapReals f = .beginRecord name := rfl
    obtain ⟨fields, settled, declared, he, hu, -⟩ := exists_first_beginRecord o name
    rw [hkeep, he, mapReals, mapRealsFields_eq, mapReals_unknowns hu]
  | _ => rfl

section

variable (hf : KeepsInts f)
include hf

theorem mapReals_realOfInt (n : Int64) : f (realOfInt n) = realOfInt n := hf n.toInt

theorem mapReals_zero : f .zero = .zero := by
  have hzero : Binary64.ofInt 0 = .zero := by
    rw [Binary64.ofInt, Binary64.ofRatio, Binary64.magnitudeOfUnits_of_small Nat.one_pos]
    · rfl
    · simp
  rw [← hzero, hf]

theorem mapReals_ofReal (x : Binary64) : (Complex.ofReal x).mapReals f = .ofReal (f x) := by
  rw [Complex.ofReal, Complex.mapReals, mapReals_zero hf]
  rfl

theorem mapReals_complexOfInt (n : Int64) : (complexOfInt n).mapReals f = complexOfInt n := by
  rw [complexOfInt, mapReals_ofReal hf, mapReals_realOfInt hf]

/-- A mapped column accepts the mapped element. -/
theorem mapReals_accept (c : Column) (p : Push) :
    (c.accept p).mapReals f = (c.mapReals f).accept (p.mapReals f) := by
  cases c with
  | int64 values =>
    cases p with
    | real | complex =>
      simp [accept, mapReals, Push.mapReals, Function.comp_def, mapReals_realOfInt hf,
        mapReals_complexOfInt hf]
    | _ => rfl
  | float64 values =>
    cases p with
    | int | real | complex =>
      simp [accept, mapReals, Push.mapReals, Function.comp_def, mapReals_realOfInt hf,
        mapReals_ofReal hf]
    | _ => rfl
  | complex128 values =>
    cases p with
    | int | real | complex =>
      simp [accept, mapReals, Push.mapReals, mapReals_complexOfInt hf, mapReals_ofReal hf]
    | _ => rfl
  | _ => cases p <;> rfl

/-- A mapped column takes a mapped push. -/
theorem Takes.mapReals {o : Options} {c c' : Column} {p : Push} (h : Takes o c p c') :
    Takes o (c.mapReals f) (p.mapReals f) (c'.mapReals f) := by
  -- The induction is on the rules; each rule asks for nothing that a map of the reals changes.
  have hidle : ∀ {d : Column}, d.isActive = false → (d.mapReals f).isActive = false :=
    fun hd => (isActive_mapReals _).trans hd
  have hclass : ∀ {q : Push} {k : ElementClass}, q.elementClass? = some k →
      (q.mapReals f).elementClass? = some k := fun hq => (Push.elementClass?_mapReals _).trans hq
  have hat : ∀ {cs : List Column} {i : Nat} {d : Column}, cs[i]? = some d →
      (cs.map (Column.mapReals f))[i]? = some (d.mapReals f) := by
    intro cs i d hd
    rw [List.getElem?_map, hd, Option.map_some]
  induction h with
  | unknown_null n => exact .unknown_null n
  | unknown_first n hp =>
    rw [mapReals_afterNulls, mapReals_first]
    exact .unknown_first n (hclass hp)
  | option_null hc => exact .option_null (hidle hc)
  | @option_present index content content' p k hc hp _ ih =>
    rw [Column.mapReals, Column.mapReals, ← length_mapReals (f := f) content]
    exact .option_present (hidle hc) (hclass hp) ih
  | option_open hc _ ih => exact .option_open ((isActive_mapReals _).trans hc) ih
  | @first_null c hc hu ho =>
    have hstep := Takes.first_null (o := o) (c := c.mapReals f) (hidle hc)
      ((kind_mapReals c).trans_ne hu) ((kind_mapReals c).trans_ne ho)
    rwa [length_mapReals] at hstep
  | @own c p k hc hp hk =>
    rw [mapReals_accept hf]
    exact .own (hidle hc) (hclass hp) ((class?_mapReals c).trans hk)
  | @other c p k k' hc hp hk hne =>
    rw [mapReals_joinedBy, mapReals_first]
    exact .other (hidle hc) (hclass hp) ((class?_mapReals c).trans hk) hne
  | @list_end offsets content hc =>
    rw [Column.mapReals, Column.mapReals, ← length_mapReals (f := f) content]
    exact .list_end (hidle hc)
  | list_item _ ih => exact .list_item ih
  | @tuple_index slots n slot i c hs hc hlen =>
    simp only [Column.mapReals, mapRealsAll_eq]
    exact .tuple_index ((isSlotActive_mapReals slots _).trans hs) (hat hc)
      ((length_mapReals c).trans_le hlen)
  | @tuple_end slots n slot hs =>
    simp only [Column.mapReals, mapRealsAll_eq, mapReals_fillSlots]
    exact .tuple_end ((isSlotActive_mapReals slots _).trans hs)
  | @tuple_slot slots n i c c' p hc hlen _ ih =>
    simp only [Column.mapReals, mapRealsAll_eq, List.map_set]
    exact .tuple_slot (hat hc) ((length_mapReals c).trans_le hlen) ih
  | @record_field name fields n slot settled declared key check i c hs hi hc hlen =>
    simp only [Column.mapReals, mapRealsFields_eq]
    exact .record_field (by rwa [columnsOf_mapReals, isSlotActive_mapReals])
      (by rwa [fieldIndex?_mapReals]) (by rw [columnsOf_mapReals]; exact hat hc)
      ((length_mapReals c).trans_le hlen)
  | @record_new name fields n slot settled declared key check hs hi hcheck =>
    have hlen : (fields.map fun g => (g.1, g.2.mapReals f)).length = fields.length :=
      List.length_map _
    simp only [Column.mapReals, mapRealsFields_eq, List.map_append]
    rw [← hlen]
    exact .record_new (by rwa [columnsOf_mapReals, isSlotActive_mapReals])
      (by rwa [fieldIndex?_mapReals]) hcheck
  | @record_end name fields n slot settled declared hs =>
    simp only [Column.mapReals, mapRealsFields_eq, mapReals_fillFields]
    exact .record_end (by rwa [columnsOf_mapReals, isSlotActive_mapReals])
  | @record_slot name fields n i settled declared c c' p hc hlen _ ih =>
    simp only [Column.mapReals, mapRealsFields_eq, setField_mapReals]
    exact .record_slot (by rw [columnsOf_mapReals]; exact hat hc)
      ((length_mapReals c).trans_le hlen) ih
  | @union_own tags index children tag c c' p k hp ht hc _ ih =>
    simp only [Column.mapReals, mapRealsAll_eq, List.map_set]
    rw [← length_mapReals (f := f) c, ← openTag_mapReals (f := f) tag c']
    exact .union_own (hclass hp) ((findIdx?_admits_mapReals k children).trans ht) (hat hc) ih
  | @union_new tags index children p k hp ht hlt =>
    rw [mapReals_addChild, mapReals_first]
    simp only [Column.mapReals, mapRealsAll_eq]
    exact .union_new (hclass hp) ((findIdx?_admits_mapReals k children).trans ht)
      (by rwa [List.length_map])
  | @union_open tags index children tag c c' p hc _ ih =>
    simp only [Column.mapReals, mapRealsAll_eq, List.map_set]
    rw [← openTag_mapReals (f := f) tag c']
    exact .union_open (hat hc) ih

/-- A mapped column takes mapped pushes. -/
theorem TakesAll.mapReals {o : Options} {d : Nat} {c c' : Column} {ps : List Push}
    (h : TakesAll o d c ps c') :
    TakesAll o d (c.mapReals f) (ps.map (Push.mapReals f)) (c'.mapReals f) := by
  induction h with
  | nil => exact .nil _ _
  | @cons d c c₁ c' p ps hd hp _ ih =>
    have hdepth : Builder.depthAfter (p.mapReals f) d = Builder.depthAfter p d := by
      simp only [Builder.depthAfter, Push.opens?_mapReals, Push.closes?_mapReals]
    refine .cons (by rwa [Push.opens?_mapReals]) (hp.mapReals hf) ?_
    rwa [hdepth]

end

end Column

namespace Builder

/-- **A builder that takes mapped values is the mapped builder.** -/
theorem extend_mapReals {f : Binary64 → Binary64} (hf : KeepsInts f) {o : Options} {b : Builder}
    {vs : List Value} (h : (new o).extend vs = .ok b) :
    (new o).extend (Value.mapRealsItems f vs) = .ok (b.mapReals f) := by
  obtain ⟨root, htakes, rfl⟩ := (pushAll_eq_ok_iff (Column.sound_unknown 0) rfl).mp h
  rw [extend, Value.itemPushes_mapReals]
  refine (pushAll_eq_ok_iff (Column.sound_unknown 0) rfl).mpr ⟨_, htakes.mapReals hf, ?_⟩
  rw [Push.depthsAfter_mapReals]
  rfl

end Builder

end Columnar
