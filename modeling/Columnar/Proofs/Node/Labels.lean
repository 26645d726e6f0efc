import Columnar.Node.Push
import Columnar.Proofs.Table

/-!
# What nodes keep is handed over

Below the root, no node ever keeps annotations; all nodes keep the same settings; and whatever
takes the place of the root keeps the annotations of the root.  Each of the ways in which one node
takes the place of another has to see to that: the first element of an unknown node, with missing
elements before it or without; the three ways to wider numbers; the two wrappers.  So have the
places where a node is made below another one: items, slots, fields, and the children of unions.

## Main definitions

* `Node.children` — the nodes directly below a node.
* `Node.Carries` — annotations at the outermost node, none below, and the same settings everywhere.

## Main results

* `Node.Carries.widened`, `Node.carries_promote`, `Node.Carries.wrapOption`,
  `Node.Carries.wrapUnion` — each replacement hands over.
* `Node.carries_push` — **after a push, taken or refused, each node keeps what it has to.**
-/

namespace Columnar

namespace Node

variable {o : Options} {ps : Parameters} {n : Node} {p : Push}

/-- The nodes directly below a node. -/
def children : Node → List Node
  | .option _ _ content => [content]
  | .list _ _ content _ => [content]
  | .tuple _ slots _ _ => slots
  | .record _ _ fields _ _ _ _ => nodesOf fields
  | .union _ _ _ children _ => children
  | _ => []

theorem sizeOf_lt_of_mem_nodesOf {fields : List (String × Node)} {d : Node}
    (h : d ∈ nodesOf fields) : sizeOf d < sizeOf fields := by
  obtain ⟨⟨key, e⟩, hmem, rfl⟩ := List.mem_map.mp h
  have hlt := List.sizeOf_lt_of_mem hmem
  simp only [Prod.mk.sizeOf_spec] at hlt
  change sizeOf e < _
  omega

theorem sizeOf_lt_of_mem_children {d : Node} (h : d ∈ n.children) : sizeOf d < sizeOf n := by
  cases n with
  | option l index content =>
    rw [List.mem_singleton.mp h, option.sizeOf_spec]
    omega
  | list l offsets content isOpen =>
    rw [List.mem_singleton.mp h, list.sizeOf_spec]
    omega
  | tuple l slots length filling =>
    have hlt := List.sizeOf_lt_of_mem (show d ∈ slots from h)
    rw [tuple.sizeOf_spec]
    omega
  | record l name fields length filling settled declared =>
    have hlt := sizeOf_lt_of_mem_nodesOf (show d ∈ nodesOf fields from h)
    rw [record.sizeOf_spec]
    omega
  | union l tags index children current =>
    have hlt := List.sizeOf_lt_of_mem (show d ∈ children from h)
    rw [union.sizeOf_spec]
    omega
  | unknown | bool | int64 | float64 | complex128 | time | string => cases h

/-- Induction over a node: what holds of a node once it holds of the nodes directly below it holds
of every node. -/
theorem induct {motive : Node → Prop} (node : ∀ n, (∀ d ∈ n.children, motive d) → motive n)
    (n : Node) : motive n :=
  node n fun d _hd => induct node d
termination_by sizeOf n
decreasing_by exact sizeOf_lt_of_mem_children _hd

/-- All nodes keep a copy of the same settings; the outermost one keeps annotations, and the nodes
below it none. -/
inductive Carries (o : Options) : Parameters → Node → Prop
  /-- The outermost node, and the nodes directly below it. -/
  | intro {ps : Parameters} {n : Node} (label : n.label = ⟨o, ps⟩)
      (children : ∀ d ∈ n.children, Carries o [] d) : Carries o ps n

namespace Carries

theorem label : n.Carries o ps → n.label = ⟨o, ps⟩
  | .intro h _ => h

theorem children : n.Carries o ps → ∀ d ∈ n.children, d.Carries o []
  | .intro _ h => h

/-- A node with the same nodes below it, under the same label or another one. -/
theorem congr {m : Node} {ps' : Parameters} (h : n.Carries o ps) (hlabel : m.label = ⟨o, ps'⟩)
    (hchildren : m.children = n.children) : m.Carries o ps' :=
  .intro hlabel (by rw [hchildren]; exact h.children)

end Carries

/-! ### New nodes -/

theorem carries_leaf (hlabel : n.label = ⟨o, ps⟩) (hchildren : n.children = []) :
    n.Carries o ps := .intro hlabel (by rw [hchildren]; nofun)

theorem carries_withNulls (o : Options) (nulls : Nat) : (withNulls o nulls).Carries o [] :=
  carries_leaf rfl rfl

theorem carries_new (o : Options) : (new o).Carries o [] := carries_withNulls o 0

theorem empty_beginTuple (o : Options) (arity : Nat) :
    empty o (.beginTuple arity) = .tuple ⟨o, []⟩ (List.replicate arity (new o)) 0 .closed := rfl

theorem empty_beginRecord (o : Options) (name : Option String) :
    empty o (.beginRecord name) = emptyRecords o name := rfl

/-- A node without elements has no annotations, and neither have its items, slots and fields. -/
theorem carries_empty (o : Options) (p : Push) : (empty o p).Carries o [] := by
  cases p with
  | beginList =>
    refine .intro rfl fun d hd => ?_
    rw [List.mem_singleton.mp hd]
    exact carries_new o
  | beginTuple arity =>
    refine .intro rfl fun d hd => ?_
    rw [List.eq_of_mem_replicate hd]
    exact carries_new o
  | beginRecord name =>
    rw [empty_beginRecord, emptyRecords]
    split
    · refine .intro rfl fun d hd => ?_
      obtain ⟨e, he, rfl⟩ := List.mem_map.mp hd
      obtain ⟨key, -, rfl⟩ := List.mem_map.mp (mem_of_mem_tableOf he)
      exact carries_new o
    · exact carries_leaf rfl rfl
  | _ => exact carries_leaf rfl rfl

/-! ### Taking the place of a node -/

@[simp] theorem label_withParameters (ps : Parameters) (n : Node) :
    (n.withParameters ps).label = ⟨n.label.options, ps⟩ := by
  cases n <;> rfl

@[simp] theorem children_withParameters (ps : Parameters) (n : Node) :
    (n.withParameters ps).children = n.children := by
  cases n <;> rfl

namespace Carries

theorem withParameters (h : n.Carries o ps) (ps' : Parameters) :
    (n.withParameters ps').Carries o ps' :=
  h.congr (by rw [label_withParameters, h.label]) (children_withParameters ps' n)

theorem setParameter (h : n.Carries o ps) (name : String) (value : Document) :
    (n.setParameter name value).Carries o (assign ps name value.sorted) := by
  rw [Node.setParameter, h.label]
  exact h.withParameters _

/-- Wider numbers take over what the narrower ones kept. -/
theorem widened (h : n.Carries o ps) (p : Push) : (n.widened p).Carries o ps := by
  cases n with
  | int64 l vs =>
    cases p with
    | real x => exact h.congr h.label rfl
    | complex z => exact h.congr h.label rfl
    | _ => exact h
  | float64 l vs =>
    cases p with
    | complex z => exact h.congr h.label rfl
    | _ => exact h
  | _ => exact h

theorem append (h : n.Carries o ps) (p : Push) : (n.append p).Carries o ps := by
  cases n <;> cases p <;> first | exact h | exact h.congr h.label rfl

theorem accept (h : n.Carries o ps) (p : Push) : (n.accept p).Carries o ps :=
  (h.widened p).append p

/-- The annotations move to the node around the content, which keeps none. -/
theorem wrapOption (h : n.Carries o ps) : n.wrapOption.Carries o ps := by
  refine .intro h.label fun d hd => ?_
  rw [List.mem_singleton.mp hd]
  exact h.withParameters []

/-- The annotations move to the union, and its only child keeps none. -/
theorem wrapUnion (h : n.Carries o ps) : n.wrapUnion.Carries o ps := by
  refine .intro h.label fun d hd => ?_
  rw [List.mem_singleton.mp hd]
  exact h.withParameters []

end Carries

/-- The first element of an unknown node: a new node takes over the annotations, and the wrapper
for missing elements takes them over instead of it. -/
theorem carries_promote {fresh : Node} (h : fresh.Carries o []) (ps : Parameters) (nulls : Nat) :
    (promote ⟨o, ps⟩ nulls fresh).Carries o ps := by
  unfold promote
  split
  · exact h.withParameters ps
  · refine .intro rfl fun d hd => ?_
    rw [List.mem_singleton.mp hd]
    exact h

theorem carries_withFirst (o : Options) (ps : Parameters) (nulls : Nat) (p : Push) :
    (withFirst ⟨o, ps⟩ nulls p).Carries o ps := by
  have hpromote := carries_promote (carries_empty o p) ps nulls
  unfold withFirst
  dsimp only
  split
  · next l index content heq =>
    rw [heq] at hpromote
    refine .intro hpromote.label fun d hd => ?_
    rw [List.mem_singleton.mp hd]
    exact (hpromote.children content (List.mem_singleton_self _)).accept p
  · exact hpromote.accept p

theorem carries_addChild {l : NodeLabel} {children : List Node} (hl : l = ⟨o, ps⟩)
    (hchildren : ∀ d ∈ children, d.Carries o []) (tags index : Array Nat) (p : Push) :
    (addChild l tags index children p).Carries o ps := by
  subst hl
  refine .intro rfl fun d hd => ?_
  rcases List.mem_append.mp hd with hd | hd
  · exact hchildren d hd
  · rw [List.mem_singleton.mp hd]
    exact carries_withFirst o [] 0 p

namespace Carries

theorem appendNull (h : n.Carries o ps) : n.appendNull.Carries o ps := by
  cases n with
  | unknown l nulls => exact h.congr h.label rfl
  | option l index content => exact h.congr h.label rfl
  | _ => exact h.wrapOption.congr h.wrapOption.label rfl

theorem joinedBy (h : n.Carries o ps) (p : Push) : (n.joinedBy p).Carries o ps :=
  carries_addChild h.wrapUnion.label h.wrapUnion.children _ _ p

theorem fillSlot (h : n.Carries o ps) (row : Nat) : (n.fillSlot row).Carries o ps := by
  unfold Node.fillSlot
  split
  · exact h.appendNull
  · exact h

end Carries

/-! ### Pushes -/

/-- Nodes in a list, of which the one at a place takes a push. -/
theorem carries_pushAt {ns : List Node} (hpush : ∀ d ∈ ns, (d.push p).state.Carries o [])
    (hns : ∀ d ∈ ns, d.Carries o []) (i : Nat) :
    ∀ d ∈ (pushAt ns i p).state, d.Carries o [] := by
  induction ns generalizing i with
  | nil => exact fun d hd => absurd hd (by rw [pushAt]; nofun)
  | cons n ns ih =>
    obtain ⟨hn, hns⟩ := List.forall_mem_cons.mp hns
    obtain ⟨hpushed, hpush⟩ := List.forall_mem_cons.mp hpush
    cases i with
    | zero =>
      rw [pushAt, Pushed.state_inside]
      exact List.forall_mem_cons.mpr ⟨hpushed, hns⟩
    | succ i =>
      rw [pushAt, Pushed.state_inside]
      exact List.forall_mem_cons.mpr ⟨hn, ih hpush hns i⟩

/-- The nodes of fields, of which the one at a place takes a push. -/
theorem carries_pushField {fields : List (String × Node)}
    (hpush : ∀ d ∈ nodesOf fields, (d.push p).state.Carries o [])
    (hfields : ∀ d ∈ nodesOf fields, d.Carries o []) (i : Nat) :
    ∀ d ∈ nodesOf (pushField fields i p).state, d.Carries o [] := by
  induction fields generalizing i with
  | nil => exact fun d hd => absurd hd (by rw [pushField]; nofun)
  | cons f fields ih =>
    obtain ⟨hn, hfields⟩ := List.forall_mem_cons.mp hfields
    obtain ⟨hpushed, hpush⟩ := List.forall_mem_cons.mp hpush
    cases i with
    | zero =>
      rw [pushField, Pushed.state_inside]
      exact List.forall_mem_cons.mpr ⟨hpushed, hfields⟩
    | succ i =>
      rw [pushField, Pushed.state_inside]
      exact List.forall_mem_cons.mpr ⟨hn, ih hpush hfields i⟩

theorem Carries.selectSlot {l : NodeLabel} {slots : List Node} {length : Nat} {filling : Filling}
    (h : (tuple l slots length filling).Carries o ps) (i : Nat) :
    (Node.selectSlot l slots length filling i).state.Carries o ps := by
  unfold Node.selectSlot
  split
  · exact h
  · split
    · exact h
    · exact h.congr h.label rfl

/-- The node of a new field gets a copy of the settings, and no annotations. -/
theorem Carries.selectField {l : NodeLabel} {name : Option String} {fields : List (String × Node)}
    {length : Nat} {filling : Filling} {settled declared : Bool}
    (h : (record l name fields length filling settled declared).Carries o ps) (key : String)
    (check : Bool) :
    (Node.selectField l name fields length filling settled declared key check).state.Carries
      o ps := by
  have hl : l = ⟨o, ps⟩ := h.label
  unfold Node.selectField
  split
  · split
    · exact h
    · exact h.congr h.label rfl
  · split
    · exact h
    · refine .intro h.label fun d hd => ?_
      have hd : d ∈ (fields ++ [(key, withNulls l.options length)]).map Prod.snd := hd
      rw [List.map_append] at hd
      rcases List.mem_append.mp hd with hd | hd
      · exact h.children d hd
      · rw [List.mem_singleton.mp hd, hl]
        exact carries_withNulls o length

theorem Carries.pushClosed (h : n.Carries o ps) (p : Push) :
    (n.pushClosed p).state.Carries o ps := by
  unfold Node.pushClosed
  split
  · exact h.appendNull
  · split
    · split
      · exact h.accept _
      · exact h.joinedBy _
    · exact h

namespace Carries

theorem push_unknown {l : NodeLabel} {nulls : Nat} (h : (unknown l nulls).Carries o ps)
    (p : Push) : ((unknown l nulls).push p).state.Carries o ps := by
  obtain rfl : l = ⟨o, ps⟩ := h.label
  cases p with
  | null => exact h.congr rfl rfl
  | bool | int | real | complex | time | string | beginList | beginTuple | beginRecord =>
    exact carries_withFirst o ps nulls _
  | _ => exact h

theorem push_option {l : NodeLabel} {index : Array (Option Nat)} {content : Node}
    (h : (option l index content).Carries o ps) (hcontent : (content.push p).state.Carries o []) :
    ((option l index content).push p).state.Carries o ps := by
  have hwrap : ∀ index : Array (Option Nat),
      (option l index (content.push p).state).Carries o ps := by
    refine fun index => .intro h.label fun d hd => ?_
    rw [List.mem_singleton.mp hd]
    exact hcontent
  cases p with
  | unknownUnit kind code => exact h
  | null =>
    simp only [push]
    split
    · rw [Pushed.state_inside]
      exact hwrap index
    · exact h.congr h.label rfl
  | _ =>
    simp only [push]
    split
    · rw [Pushed.state_inside]
      exact hwrap index
    · split
      · exact h
      · split
        · next content' hc =>
          rw [hc] at hwrap
          exact hwrap _
        · next r hc =>
          rw [hc] at hwrap
          exact hwrap _

theorem push_list {l : NodeLabel} {offsets : Array Nat} {content : Node}
    (h : (list l offsets content true).Carries o ps)
    (hcontent : (content.push p).state.Carries o []) :
    ((list l offsets content true).push p).state.Carries o ps := by
  cases p with
  | unknownUnit kind code => exact h
  | _ =>
    simp only [push]
    split
    · exact h.congr h.label rfl
    · rw [Pushed.state_inside]
      refine .intro h.label fun d hd => ?_
      rw [List.mem_singleton.mp hd]
      exact hcontent

theorem push_tuple {l : NodeLabel} {slots : List Node} {length : Nat} {slot : Option Nat}
    (h : (tuple l slots length (.filling slot)).Carries o ps)
    (hslots : ∀ d ∈ (pushAt slots (slot.getD 0) p).state, d.Carries o []) :
    ((tuple l slots length (.filling slot)).push p).state.Carries o ps := by
  have hslot : ((pushAt slots (slot.getD 0) p).inside
      fun slots => tuple l slots length (.filling slot)).state.Carries o ps := by
    rw [Pushed.state_inside]
    exact .intro h.label hslots
  cases p with
  | unknownUnit kind code => exact h
  | index i =>
    simp only [push]
    split
    · exact hslot
    · exact h.selectSlot i
  | endTuple =>
    simp only [push]
    split
    · exact hslot
    · refine .intro h.label fun d hd => ?_
      obtain ⟨e, he, rfl⟩ := List.mem_map.mp hd
      exact (h.children e he).fillSlot length
  | _ =>
    simp only [push]
    split
    · exact hslot
    · split
      · exact h
      · exact hslot

theorem push_record {l : NodeLabel} {name : Option String} {fields : List (String × Node)}
    {length : Nat} {slot : Option Nat} {settled declared : Bool}
    (h : (record l name fields length (.filling slot) settled declared).Carries o ps)
    (hfields : ∀ d ∈ nodesOf (pushField fields (slot.getD 0) p).state, d.Carries o []) :
    ((record l name fields length (.filling slot) settled declared).push p).state.Carries o ps := by
  have hslot : ((pushField fields (slot.getD 0) p).inside
      fun fields => record l name fields length (.filling slot) settled declared).state.Carries
        o ps := by
    rw [Pushed.state_inside]
    exact .intro h.label hfields
  cases p with
  | unknownUnit kind code => exact h
  | field key check =>
    simp only [push]
    split
    · exact hslot
    · exact h.selectField key check
  | endRecord =>
    simp only [push]
    split
    · exact hslot
    · refine .intro h.label fun d hd => ?_
      obtain ⟨f, hf, rfl⟩ := List.mem_map.mp hd
      obtain ⟨e, he, rfl⟩ := List.mem_map.mp hf
      exact (h.children _ (List.mem_map_of_mem he)).fillSlot length
  | _ =>
    simp only [push]
    split
    · exact hslot
    · split
      · exact h
      · exact hslot

theorem push_union_open {l : NodeLabel} {tags index : Array Nat} {children : List Node} {tag : Nat}
    (h : (union l tags index children (some tag)).Carries o ps)
    (hchildren : ∀ d ∈ (pushAt children tag p).state, d.Carries o []) :
    ((union l tags index children (some tag)).push p).state.Carries o ps := by
  cases p with
  | unknownUnit kind code => exact h
  | _ =>
    simp only [push, Pushed.state_inside]
    exact .intro h.label hchildren

/-- A new child of a union gets a copy of the settings, and no annotations. -/
theorem push_union_closed {l : NodeLabel} {tags index : Array Nat} {children : List Node}
    (h : (union l tags index children none).Carries o ps)
    (hchildren : ∀ tag, ∀ d ∈ (pushAt children tag p).state, d.Carries o []) :
    ((union l tags index children none).push p).state.Carries o ps := by
  have hclosed := h.pushClosed p
  cases p with
  | unknownUnit kind code => exact h
  | _ =>
    simp only [push]
    split
    · exact hclosed
    · split
      · next tag _ =>
        have hpushed := hchildren tag
        split
        · next children' hc =>
          rw [hc] at hpushed
          exact .intro h.label hpushed
        · next r hc =>
          rw [hc] at hpushed
          exact .intro h.label hpushed
      · split
        · exact h
        · exact carries_addChild h.label h.children tags index _

end Carries

/-- **After a push, taken or refused, each node keeps what it has to**: the outermost one the
annotations that were there, the nodes below it none, and all of them the same settings. -/
theorem carries_push (n : Node) : ∀ {ps : Parameters}, n.Carries o ps → ∀ p : Push,
    (n.push p).state.Carries o ps := by
  -- The induction is on the nodes; below the root the annotations that are kept are none.
  induction n using Node.induct with
  | node n ih =>
    intro ps h p
    have hbelow : ∀ d ∈ n.children, (d.push p).state.Carries o [] :=
      fun d hd => ih d hd (h.children d hd) p
    have hclosed : (n.pushClosed p).state.Carries o ps := h.pushClosed p
    cases n with
    | unknown l nulls => exact h.push_unknown p
    | option l index content => exact h.push_option (hbelow content List.mem_cons_self)
    | list l offsets content isOpen =>
      cases isOpen with
      | true => exact h.push_list (hbelow content List.mem_cons_self)
      | false => cases p <;> exact hclosed
    | tuple l slots length filling =>
      cases filling with
      | filling slot => exact h.push_tuple (carries_pushAt hbelow h.children _)
      | closed => cases p <;> exact hclosed
    | record l name fields length filling settled declared =>
      cases filling with
      | filling slot => exact h.push_record (carries_pushField hbelow h.children _)
      | closed => cases p <;> exact hclosed
    | union l tags index children current =>
      cases current with
      | some tag => exact h.push_union_open (carries_pushAt hbelow h.children _)
      | none => exact h.push_union_closed (carries_pushAt hbelow h.children)
    | _ => cases p <;> exact hclosed

/-! ### Clearing -/

theorem clearAll_eq (ns : List Node) : clearAll ns = ns.map clear := by
  induction ns with
  | nil => rfl
  | cons n ns ih => rw [clearAll, ih, List.map_cons]

theorem nodesOf_clearFields (fields : List (String × Node)) :
    nodesOf (clearFields fields) = (nodesOf fields).map clear := by
  induction fields with
  | nil => rfl
  | cons f fields ih =>
    rw [clearFields, nodesOf, List.map_cons, ← nodesOf, ih]
    rfl

@[simp] theorem label_clear (n : Node) : n.clear.label = n.label := by
  cases n <;> rfl

theorem children_clear (n : Node) : n.clear.children = n.children.map clear := by
  cases n with
  | tuple l slots length filling => exact clearAll_eq slots
  | record l name fields length filling settled declared => exact nodesOf_clearFields fields
  | union l tags index children current => exact clearAll_eq children
  | _ => rfl

/-- A cleared node keeps what it kept, and so do the nodes below it. -/
theorem Carries.clear (h : n.Carries o ps) : n.clear.Carries o ps := by
  induction h with
  | @intro ps n hlabel _ ih =>
    refine .intro (by rw [label_clear, hlabel]) fun d hd => ?_
    rw [children_clear] at hd
    obtain ⟨e, he, rfl⟩ := List.mem_map.mp hd
    exact ih e he

end Node

end Columnar
