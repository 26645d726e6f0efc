import Columnar.Node.Layout
import Columnar.Proofs.Column.Preservation
import Columnar.Proofs.Column.Refusal
import Columnar.Proofs.Node.Labels

/-!
# The elements of nodes

What a node keeps beside its elements is never asked when a push comes.  So the elements of a
pushed node are those that its column has after the push, and the push is refused for the same
cause or taken by both.  New nodes are made after the settings of the node above them, which are
those of the whole builder.

A union asks after every push, also after a refused one, whether its child is still open.  A column
asks after a push that is taken: a refused one leaves the child as it was, and the child that the
union has as its current one is open.

## Main results

* `Node.column_accept`, `Node.column_withFirst`, `Node.column_appendNull`, `Node.column_joinedBy` —
  the elements of what takes the place of a node.
* `Node.column_push` — **the elements after a push into a node are those of its column after it.**
* `Node.column_clear`, `Node.layout_eq` — a cleared node, and what is written of one.
-/

namespace Columnar.Node

variable {o : Options} {ps : Parameters} {n : Node} {p : Push}

/-! ### Several nodes -/

@[simp] theorem columns_eq (ns : List Node) : columns ns = ns.map column := by
  induction ns with
  | nil => rfl
  | cons n ns ih => rw [columns, ih, List.map_cons]

@[simp] theorem fieldColumns_eq (fields : List (String × Node)) :
    fieldColumns fields = fields.map fun f => (f.1, f.2.column) := by
  induction fields with
  | nil => rfl
  | cons f rest ih =>
    obtain ⟨key, n⟩ := f
    rw [fieldColumns, ih, List.map_cons]

theorem columnsOf_fieldColumns (fields : List (String × Node)) :
    Column.columnsOf (fieldColumns fields) = columns (nodesOf fields) := by
  simp [Column.columnsOf, nodesOf, Function.comp_def]

theorem keys_fieldColumns (fields : List (String × Node)) :
    (fieldColumns fields).map Prod.fst = fields.map Prod.fst := by
  simp [Function.comp_def]

theorem fieldIndex?_fieldColumns (fields : List (String × Node)) (key : String) :
    Column.fieldIndex? (fieldColumns fields) key = fieldIndex? fields key := by
  rw [fieldColumns_eq, Column.fieldIndex?, List.findIdx?_map]
  rfl

theorem findIdx?_admits_columns (k : ElementClass) (ns : List Node) :
    (columns ns).findIdx? (Column.admits k) = ns.findIdx? fun n => n.column.admits k := by
  rw [columns_eq, List.findIdx?_map]
  rfl

theorem children_column (n : Node) : n.column.children = n.children.map column := by
  cases n with
  | tuple l slots length filling => exact columns_eq slots
  | record l name fields length filling settled declared =>
    exact (columnsOf_fieldColumns fields).trans (columns_eq _)
  | union l tags index children current => exact columns_eq children
  | _ => rfl

/-! ### Taking the place of a node -/

@[simp] theorem column_withParameters (ps : Parameters) (n : Node) :
    (n.withParameters ps).column = n.column := by
  cases n <;> rfl

/-- Wider numbers and then the element are what a column of numbers makes of it in one step. -/
theorem column_accept (n : Node) (p : Push) : (n.accept p).column = n.column.accept p := by
  cases n <;> cases p <;> rfl

theorem column_wrapOption (n : Node) : n.wrapOption.column = n.column.wrapOption := by
  rw [wrapOption, column, column_withParameters]
  rfl

theorem column_wrapUnion (n : Node) : n.wrapUnion.column = n.column.wrapUnion := by
  rw [wrapUnion, column, columns, columns, column_withParameters]
  rfl

/-- The fields that records of a name start with have nodes without elements. -/
theorem column_emptyRecords (o : Options) (name : Option String) :
    (emptyRecords o name).column = Column.emptyRecords o name := by
  unfold emptyRecords Column.emptyRecords
  cases o.declaredFields? name with
  | none => rfl
  | some fields =>
    have hmap : fieldColumns (tableOf (fields.map fun key => (key, new o)))
        = Column.declaredColumns fields := by
      rw [fieldColumns_eq, ← tableOf_map, List.map_map]
      rfl
    exact congrArg (Column.record name · 0 .closed true true) hmap

/-- A node without elements that takes its first one. -/
theorem column_accept_empty {k : ElementClass} (hk : p.elementClass? = some k) :
    ((empty o p).accept p).column = Column.first o p := by
  rw [column_accept]
  cases p with
  | beginTuple arity =>
    rw [empty_beginTuple, column, columns_eq, List.map_replicate]
    rfl
  | beginRecord name =>
    rw [empty_beginRecord, column_emptyRecords, Column.first_beginRecord]
    unfold Column.emptyRecords
    cases o.declaredFields? name <;> rfl
  | string encoding bytes =>
    have hdata : (#[] : Array UInt8) ++ bytes = bytes.toArray := by simp
    have haccept : (empty o (.string encoding bytes)).column.accept (.string encoding bytes)
        = .string encoding (#[0].push (#[] ++ bytes : Array UInt8).size) (#[] ++ bytes) := rfl
    rw [haccept, hdata]
    rfl
  | null | endList | index | endTuple | field | endRecord | unknownUnit => cases hk
  | _ => rfl

theorem length_empty (o : Options) (p : Push) : (empty o p).length = 0 := by
  cases p with
  | beginRecord name =>
    rw [empty_beginRecord, emptyRecords]
    cases o.declaredFields? name <;> rfl
  | _ => rfl

/-- Without missing elements the new node itself takes the first one. -/
theorem withFirst_zero (l : NodeLabel) (p : Push) :
    withFirst l 0 p = ((empty l.options p).withParameters l.parameters).accept p := by
  cases p with
  | beginRecord name =>
    rw [withFirst, empty_beginRecord, emptyRecords]
    cases l.options.declaredFields? name <;> rfl
  | _ => rfl

theorem accept_withParameters (ps : Parameters) (n : Node) (p : Push) :
    (n.withParameters ps).accept p = (n.accept p).withParameters ps := by
  cases n <;> cases p <;> rfl

/-- Missing elements before the first one take an option around it, as in a column. -/
theorem column_withFirst {k : ElementClass} (hk : p.elementClass? = some k) (l : NodeLabel)
    (nulls : Nat) :
    (withFirst l nulls p).column = Column.afterNulls nulls (Column.first l.options p) := by
  cases nulls with
  | zero =>
    rw [withFirst_zero, accept_withParameters, column_withParameters, column_accept_empty hk]
    rfl
  | succ nulls =>
    have hwrapped : (withFirst l (nulls + 1) p).column
        = .option ((Array.replicate (nulls + 1) none).push (some (empty l.options p).length))
          ((empty l.options p).accept p).column := rfl
    rw [hwrapped, length_empty, column_accept_empty hk]
    rfl

theorem column_appendNull (n : Node) : n.appendNull.column = n.column.appendNull := by
  cases n with
  | unknown l nulls => rfl
  | option l index content => rfl
  | _ => exact congrArg (Column.option _) (column_withParameters [] _)

theorem column_addChild {k : ElementClass} (hk : p.elementClass? = some k) (l : NodeLabel)
    (tags index : Array Nat) (children : List Node) :
    (addChild l tags index children p).column
      = Column.addChild tags index (columns children) (Column.first l.options p) := by
  have hfirst : (withFirst ⟨l.options, []⟩ 0 p).column = Column.first l.options p :=
    column_withFirst hk _ 0
  rw [Column.addChild, ← hfirst, columns_eq, List.length_map, addChild, column, columns_eq,
    List.map_append]
  rfl

theorem column_joinedBy {k : ElementClass} (hk : p.elementClass? = some k) (n : Node) :
    (n.joinedBy p).column = n.column.joinedBy (Column.first n.label.options p) := by
  have hjoined : (n.joinedBy p).column = _ := column_addChild hk _ _ _ _
  rw [hjoined, columns, columns, column_withParameters]
  rfl

theorem column_fillSlot (row : Nat) (n : Node) :
    (n.fillSlot row).column = n.column.fillSlot row := by
  unfold fillSlot Column.fillSlot length
  split
  · exact column_appendNull n
  · rfl

theorem columns_fillSlots (row : Nat) (slots : List Node) :
    columns (fillSlots row slots) = Column.fillSlots row (columns slots) := by
  simp [fillSlots, Column.fillSlots, Function.comp_def, column_fillSlot]

theorem fieldColumns_fillFields (row : Nat) (fields : List (String × Node)) :
    fieldColumns (fillFields row fields) = Column.fillFields row (fieldColumns fields) := by
  simp [fillFields, Column.fillFields, Function.comp_def, column_fillSlot]

/-! ### Pushes -/

/-- The elements after a push into one of several nodes. -/
theorem columns_pushAt {ns : List Node}
    (h : ∀ n ∈ ns, (n.push p).inside column = n.column.push o p) (i : Nat) :
    (pushAt ns i p).inside columns = Column.pushAt o (columns ns) i p := by
  induction ns generalizing i with
  | nil => rfl
  | cons n ns ih =>
    obtain ⟨hn, hns⟩ := List.forall_mem_cons.mp h
    cases i with
    | zero =>
      rw [pushAt, columns, Column.pushAt, ← hn, Pushed.inside_inside, Pushed.inside_inside]
      rfl
    | succ i =>
      rw [pushAt, columns, Column.pushAt, ← ih hns, Pushed.inside_inside, Pushed.inside_inside]
      rfl

/-- The elements after a push into the node of a field. -/
theorem fieldColumns_pushField {fields : List (String × Node)}
    (h : ∀ n ∈ nodesOf fields, (n.push p).inside column = n.column.push o p) (i : Nat) :
    (pushField fields i p).inside fieldColumns = Column.pushField o (fieldColumns fields) i p := by
  induction fields generalizing i with
  | nil => rfl
  | cons f fields ih =>
    obtain ⟨key, n⟩ := f
    obtain ⟨hn, hfields⟩ := List.forall_mem_cons.mp h
    cases i with
    | zero =>
      rw [pushField, fieldColumns, Column.pushField, ← hn, Pushed.inside_inside,
        Pushed.inside_inside]
      rfl
    | succ i =>
      rw [pushField, fieldColumns, Column.pushField, ← ih hfields, Pushed.inside_inside,
        Pushed.inside_inside]
      rfl

theorem column_selectSlot (l : NodeLabel) (slots : List Node) (length : Nat) (filling : Filling)
    (i : Nat) :
    (selectSlot l slots length filling i).inside column
      = Column.selectSlot (columns slots) length filling i := by
  have hlen : (columns slots).length = slots.length := by rw [columns_eq, List.length_map]
  rw [selectSlot, Column.selectSlot, hlen]
  split
  · rfl
  · split <;> rfl

/-- A new field has had a missing element in every record so far, as in a column. -/
theorem column_selectField (l : NodeLabel) (name : Option String) (fields : List (String × Node))
    (length : Nat) (filling : Filling) (settled declared : Bool) (key : String) (check : Bool) :
    (selectField l name fields length filling settled declared key check).inside column
      = Column.selectField name (fieldColumns fields) length filling settled declared key
          check := by
  have hlen : (fieldColumns fields).length = fields.length := by
    rw [fieldColumns_eq, List.length_map]
  rw [selectField, Column.selectField, fieldIndex?_fieldColumns, columnsOf_fieldColumns,
    keys_fieldColumns, hlen]
  cases fieldIndex? fields key with
  | some i =>
    dsimp only
    split <;> rfl
  | none =>
    dsimp only
    split
    · rfl
    · simp only [Pushed.inside_ok, column, fieldColumns_eq, List.map_append]
      rfl

theorem column_pushClosed (hl : n.label.options = o) (p : Push) :
    (n.pushClosed p).inside column = n.column.pushClosed o p := by
  subst hl
  unfold pushClosed
  split
  · exact congrArg Except.ok (column_appendNull n)
  · next hnull =>
    rw [Column.pushClosed]
    case x => exact hnull
    cases hk : p.elementClass? with
    | none => rfl
    | some k =>
      dsimp only
      split
      · exact congrArg Except.ok (column_accept n _)
      · exact congrArg Except.ok (column_joinedBy hk n)

theorem column_push_unknownUnit (n : Node) (kind : TimeKind) (code : String) :
    (n.push (.unknownUnit kind code)).inside column
      = n.column.push o (.unknownUnit kind code) := by
  rw [push_unknownUnit, Column.push]
  rfl

theorem column_push_unknown {l : NodeLabel} {nulls : Nat} (hl : l.options = o) (p : Push) :
    ((unknown l nulls).push p).inside column = (unknown l nulls).column.push o p := by
  subst hl
  cases p with
  | bool | int | real | complex | time | string | beginList | beginTuple | beginRecord =>
    exact congrArg Except.ok (column_withFirst rfl l nulls)
  | _ => rfl

theorem column_push_option {l : NodeLabel} {index : Array (Option Nat)} {content : Node}
    (h : (content.push p).inside column = content.column.push o p) :
    ((option l index content).push p).inside column
      = (option l index content).column.push o p := by
  have hsame : content.isActive = content.column.isActive := rfl
  cases p with
  | unknownUnit kind code => exact column_push_unknownUnit _ kind code
  | _ =>
    simp only [push, column, Column.push, hsame, ← h]
    cases content.column.isActive with
    | true => cases content.push _ <;> rfl
    | false => cases content.push _ <;> rfl

theorem column_push_list {l : NodeLabel} {offsets : Array Nat} {content : Node}
    (h : (content.push p).inside column = content.column.push o p) :
    ((list l offsets content true).push p).inside column
      = (list l offsets content true).column.push o p := by
  have hitem : ((content.push p).inside fun content => list l offsets content true).inside column
      = (content.column.push o p).inside fun content => Column.list offsets content true := by
    rw [← h, Pushed.inside_inside, Pushed.inside_inside]
    rfl
  have hsame : content.isActive = content.column.isActive := rfl
  cases p with
  | unknownUnit kind code => exact column_push_unknownUnit _ kind code
  | endList =>
    simp only [push, column, Column.push, hsame, true_and]
    cases content.column.isActive with
    | true => exact hitem
    | false => rfl
  | _ =>
    simp only [push, column, Column.push, reduceCtorEq, false_and, if_false]
    exact hitem

theorem column_push_tuple {l : NodeLabel} {slots : List Node} {length : Nat} {slot : Option Nat}
    (h : ∀ i, (pushAt slots i p).inside columns = Column.pushAt o (columns slots) i p) :
    ((tuple l slots length (.filling slot)).push p).inside column
      = (tuple l slots length (.filling slot)).column.push o p := by
  have hslot : ((pushAt slots (slot.getD 0) p).inside
        fun slots => tuple l slots length (.filling slot)).inside column
      = (Column.pushAt o (columns slots) (slot.getD 0) p).inside
        fun slots => Column.tuple slots length (.filling slot) := by
    rw [← h, Pushed.inside_inside, Pushed.inside_inside]
    rfl
  cases p with
  | unknownUnit kind code => exact column_push_unknownUnit _ kind code
  | index i =>
    simp only [push, column, Column.push]
    cases Column.isSlotActive _ _ with
    | true => exact hslot
    | false => exact column_selectSlot l slots length _ i
  | endTuple =>
    simp only [push, column, Column.push]
    cases Column.isSlotActive _ _ with
    | true => exact hslot
    | false =>
      rw [← columns_fillSlots]
      rfl
  | _ =>
    simp only [push, column, Column.push]
    cases Column.isSlotActive _ _ with
    | true => exact hslot
    | false =>
      cases Column.slotCause? _ _ _ _ _ _ with
      | some cause => rfl
      | none => exact hslot

theorem column_push_record {l : NodeLabel} {name : Option String} {fields : List (String × Node)}
    {length : Nat} {slot : Option Nat} {settled declared : Bool}
    (h : ∀ i, (pushField fields i p).inside fieldColumns
      = Column.pushField o (fieldColumns fields) i p) :
    ((record l name fields length (.filling slot) settled declared).push p).inside column
      = (record l name fields length (.filling slot) settled declared).column.push o p := by
  have hslot : ((pushField fields (slot.getD 0) p).inside
        fun fields => record l name fields length (.filling slot) settled declared).inside column
      = (Column.pushField o (fieldColumns fields) (slot.getD 0) p).inside
        fun fields => Column.record name fields length (.filling slot) settled declared := by
    rw [← h, Pushed.inside_inside, Pushed.inside_inside]
    rfl
  have hname : (fun i : Nat => ((fieldColumns fields)[i]?.map Prod.fst).getD "")
      = fun i => (fields[i]?.map Prod.fst).getD "" := by
    funext i
    rw [← List.getElem?_map, keys_fieldColumns, List.getElem?_map]
  cases p with
  | unknownUnit kind code => exact column_push_unknownUnit _ kind code
  | field key check =>
    simp only [push, column, Column.push, columnsOf_fieldColumns]
    cases Column.isSlotActive _ _ with
    | true => exact hslot
    | false => exact column_selectField l name fields length _ settled declared key check
  | endRecord =>
    simp only [push, column, Column.push, columnsOf_fieldColumns]
    cases Column.isSlotActive _ _ with
    | true => exact hslot
    | false =>
      rw [← fieldColumns_fillFields]
      rfl
  | _ =>
    simp only [push, column, Column.push, columnsOf_fieldColumns, hname]
    cases Column.isSlotActive _ _ with
    | true => exact hslot
    | false =>
      cases Column.slotCause? _ _ _ _ _ _ with
      | some cause => rfl
      | none => exact hslot

/-- The current child of a union is open. -/
theorem isActiveAt_current {tags index : Array Nat} {children : List Column} {tag : Nat}
    (hs : Column.UnionSound tags index children (some tag)) :
    Column.isActiveAt children tag = true := by
  obtain ⟨c, hc⟩ : ∃ c, children[tag]? = some c :=
    ⟨_, List.getElem?_eq_getElem (hs.last tag rfl).1⟩
  rw [Column.isActiveAt_eq, hc]
  exact (hs.active_iff tag c hc).mpr rfl

/-- A union whose current child refuses a push: that child is as it was, so it is open still. -/
theorem column_push_union_open {l : NodeLabel} {tags index : Array Nat} {children : List Node}
    {tag : Nat} (hs : (union l tags index children (some tag)).column.Sound)
    (h : ∀ i, (pushAt children i p).inside columns = Column.pushAt o (columns children) i p) :
    ((union l tags index children (some tag)).push p).inside column
      = (union l tags index children (some tag)).column.push o p := by
  have hactive : Column.isActiveAt (columns children) tag = true := isActiveAt_current hs.node
  have hkeeps : Pushed.Keeps (columns children) (Column.pushAt o (columns children) tag p) :=
    Column.keeps_pushAt (fun c _ => Column.keeps_push o c p) tag
  cases p with
  | unknownUnit kind code => exact column_push_unknownUnit _ kind code
  | _ =>
    simp only [push, column, Column.push, ← h] at hkeeps ⊢
    cases hp : pushAt children tag _ with
    | ok children' => rfl
    | error r =>
      rw [hp] at hkeeps
      have hstate : columns r.state = columns children := hkeeps _ rfl
      simp only [Pushed.inside_error, column, hstate, hactive, if_true]

/-- A union none of whose children is open. -/
theorem column_push_union_closed {l : NodeLabel} {tags index : Array Nat} {children : List Node}
    (hl : l.options = o)
    (h : ∀ i, (pushAt children i p).inside columns = Column.pushAt o (columns children) i p) :
    ((union l tags index children none).push p).inside column
      = (union l tags index children none).column.push o p := by
  subst hl
  have hlen : (columns children).length = children.length := by rw [columns_eq, List.length_map]
  have hclosed := column_pushClosed (n := union l tags index children none) rfl p
  cases p with
  | unknownUnit kind code => exact column_push_unknownUnit _ kind code
  | _ =>
    simp only [push, column, Column.push, ← h, findIdx?_admits_columns, hlen] at hclosed ⊢
    cases hk : Push.elementClass? _ with
    | none => exact hclosed
    | some k =>
      dsimp only
      cases children.findIdx? _ with
      | some tag =>
        dsimp only
        cases pushAt children tag _ <;> rfl
      | none =>
        dsimp only
        split
        · rfl
        · exact congrArg Except.ok (column_addChild hk l tags index children)

/-- **The elements after a push into a node are those of its column after it**, whether the push is
taken or refused, if the node and those below it keep the settings of the builder. -/
theorem column_push (n : Node) : ∀ {ps : Parameters}, n.Carries o ps → n.column.Sound → ∀ p : Push,
    (n.push p).inside column = n.column.push o p := by
  induction n using Node.induct with
  | node n ih =>
    intro ps h hs p
    have hl : n.label.options = o := by rw [h.label]
    have hbelow : ∀ d ∈ n.children, (d.push p).inside column = d.column.push o p := by
      intro d hd
      refine ih d hd (h.children d hd) (hs.children _ ?_) p
      rw [children_column]
      exact List.mem_map_of_mem hd
    have hclosed : (n.pushClosed p).inside column = n.column.pushClosed o p :=
      column_pushClosed hl p
    cases n with
    | unknown l nulls => exact column_push_unknown hl p
    | option l index content => exact column_push_option (hbelow content List.mem_cons_self)
    | list l offsets content isOpen =>
      cases isOpen with
      | true => exact column_push_list (hbelow content List.mem_cons_self)
      | false => cases p <;> first | exact hclosed | rfl
    | tuple l slots length filling =>
      cases filling with
      | filling slot => exact column_push_tuple (columns_pushAt hbelow)
      | closed => cases p <;> first | exact hclosed | rfl
    | record l name fields length filling settled declared =>
      cases filling with
      | filling slot => exact column_push_record (fieldColumns_pushField hbelow)
      | closed => cases p <;> first | exact hclosed | rfl
    | union l tags index children current =>
      cases current with
      | some tag => exact column_push_union_open hs (columns_pushAt hbelow)
      | none => exact column_push_union_closed hl (columns_pushAt hbelow)
    | _ => cases p <;> first | exact hclosed | rfl

/-! ### Clearing and writing -/

mutual

/-- The elements of a cleared node. -/
theorem column_clear : ∀ n : Node, n.clear.column = n.column.clear
  | .unknown _ _ | .bool _ _ | .int64 _ _ | .float64 _ _ | .complex128 _ _ | .time _ _ _ _
  | .string _ _ _ _ => rfl
  | .option _ _ content => congrArg (Column.option #[]) (column_clear content)
  | .list _ _ content _ => congrArg (Column.list #[0] · false) (column_clear content)
  | .tuple _ slots _ _ => congrArg (Column.tuple · 0 .closed) (columns_clearAll slots)
  | .record _ name fields _ _ _ declared =>
    congrArg (Column.record name · 0 .closed declared declared) (fieldColumns_clearFields fields)
  | .union _ _ _ children _ => congrArg (Column.union #[] #[] · none) (columns_clearAll children)
termination_by structural n => n

theorem columns_clearAll : ∀ ns : List Node, columns (clearAll ns) = Column.clearAll (columns ns)
  | [] => rfl
  | n :: ns => congr (congrArg List.cons (column_clear n)) (columns_clearAll ns)
termination_by structural ns => ns

theorem fieldColumns_clearFields : ∀ fields : List (String × Node),
    fieldColumns (clearFields fields) = Column.clearFields (fieldColumns fields)
  | [] => rfl
  | (key, n) :: rest =>
    congr (congrArg (fun c => List.cons (key, c)) (column_clear n)) (fieldColumns_clearFields rest)
termination_by structural fields => fields

end

mutual

/-- A node is written as its column is, with its annotations at the root. -/
theorem layout_eq : ∀ (n : Node) {ps : Parameters}, n.Carries o ps → ∀ (partition : String)
    (next : Nat), n.layout partition next = n.column.layout partition ps next
  | .unknown l nulls, ps, h, partition, next => by
    obtain rfl : l = ⟨o, ps⟩ := h.label
    cases nulls <;> rfl
  | .option l index content, ps, h, partition, next => by
    obtain rfl : l = ⟨o, ps⟩ := h.label
    rw [layout, layout_eq content (h.children _ List.mem_cons_self)]
    rfl
  | .bool l _, ps, h, partition, next | .int64 l _, ps, h, partition, next
  | .float64 l _, ps, h, partition, next | .complex128 l _, ps, h, partition, next
  | .time l _ _ _, ps, h, partition, next | .string l _ _ _, ps, h, partition, next => by
    obtain rfl : l = ⟨o, ps⟩ := h.label
    rfl
  | .list l offsets content isOpen, ps, h, partition, next => by
    obtain rfl : l = ⟨o, ps⟩ := h.label
    rw [layout, layout_eq content (h.children _ List.mem_cons_self)]
    rfl
  | .tuple l slots length filling, ps, h, partition, next => by
    obtain rfl : l = ⟨o, ps⟩ := h.label
    rw [layout, layouts_eq slots h.children]
    rfl
  | .record l name fields length filling settled declared, ps, h, partition, next => by
    obtain rfl : l = ⟨o, ps⟩ := h.label
    rw [layout, fieldLayouts_eq fields h.children, column, Column.layout, keys_fieldColumns]
  | .union l tags index children current, ps, h, partition, next => by
    obtain rfl : l = ⟨o, ps⟩ := h.label
    rw [layout, layouts_eq children h.children]
    rfl
termination_by structural n => n

theorem layouts_eq : ∀ ns : List Node, (∀ n ∈ ns, n.Carries o []) → ∀ (partition : String)
    (next : Nat), layouts partition next ns = Column.layouts partition next (columns ns)
  | [], _, _, _ => rfl
  | n :: ns, h, partition, next => by
    obtain ⟨hn, hns⟩ := List.forall_mem_cons.mp h
    rw [layouts, layout_eq n hn, layouts_eq ns hns]
    rfl
termination_by structural ns => ns

theorem fieldLayouts_eq : ∀ fields : List (String × Node), (∀ n ∈ nodesOf fields, n.Carries o []) →
    ∀ (partition : String) (next : Nat),
      fieldLayouts partition next fields
        = Column.fieldLayouts partition next (fieldColumns fields)
  | [], _, _, _ => rfl
  | (key, n) :: rest, h, partition, next => by
    obtain ⟨hn, hrest⟩ := List.forall_mem_cons.mp h
    rw [fieldLayouts, layout_eq n hn, fieldLayouts_eq rest hrest]
    rfl
termination_by structural fields => fields

end

end Columnar.Node
