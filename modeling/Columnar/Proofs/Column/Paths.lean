import Columnar.Proofs.Column.Bounded
import Columnar.Proofs.Column.Within

/-!
# Places in a column

A place in an array is told by the way to it: down to the items of lists, to a slot of tuples of
so many slots, or to a field of records of a name.  What a column has become in the meantime does
not matter to it: missing elements and elements of other classes leave the way as it is.  So a
place is the same before and after a push, and what a push does is told place by place: nothing
is there, or something new, or the column that was there has taken the push, or a missing
element, or nothing.

## Main definitions

* `PathStep`, `Column.at?` — a step down an array, and the column that steps lead to.
* `Column.elementsAt?` — the column of the elements of one class at a place.
* `Column.Evolves` — what a push makes of what is at a place.

## Main results

* `Column.Takes.evolves_elementsAt?` — **what a push does at every place.**
* `Column.exists_path` — every column of one class stands at a place.
* `Column.Within.exists_path` — the place of the innermost column stays as it takes pushes.
* `Column.elementsAt?_clear` — what is at a place of a cleared column.
-/

namespace Columnar

/-- A step down an array. -/
inductive PathStep
  /-- To the items of lists. -/
  | item
  /-- To a slot of tuples that have `arity` of them. -/
  | slot (arity i : Nat)
  /-- To a field of records of a name. -/
  | field (name : Option String) (key : String)
  deriving DecidableEq

/-- The class of the elements that a step goes into. -/
def PathStep.outer : PathStep → ElementClass
  | item => .list
  | slot arity _ => .tuple arity
  | field name _ => .record name

namespace Column

/-- The column of the elements of a class, below missing elements and among the children of a
union. -/
def ofClass? (k : ElementClass) : Column → Option Column
  | .option _ content => ofClass? k content
  | .union _ _ children _ => children.find? (admits k)
  | c => if admits k c then some c else none

/-- The column that a step leads to, from one of the class that the step goes into. -/
def child? : Column → PathStep → Option Column
  | .list _ content _, .item => some content
  | .tuple slots _ _, .slot _ i => slots[i]?
  | .record _ fields _ _ _ _, .field _ key => (fieldIndex? fields key).bind ((columnsOf fields)[·]?)
  | _, _ => none

/-- The column that a step leads to, past missing elements and elements of other classes. -/
def step? (c : Column) (s : PathStep) : Option Column := (c.ofClass? s.outer).bind (child? · s)

/-- The column that steps lead to. -/
def at? : Column → List PathStep → Option Column
  | c, [] => some c
  | c, s :: path => (c.step? s).bind (at? · path)

/-- The column of the elements of a class at a place. -/
def elementsAt? (c : Column) (path : List PathStep) (k : ElementClass) : Option Column :=
  (c.at? path).bind (ofClass? k)

variable {o : Options} {p : Push} {c c' d d' e : Column} {k k' : ElementClass} {s : PathStep}
  {path : List PathStep} {cs : List Column}

/-! ### The column of a class -/

theorem ofClass?_of_class (hk : c.class? = some k') :
    c.ofClass? k = if k' = k then some c else none := by
  have hadmits : admits k c = true ↔ k' = k := by rw [admits_iff, hk, Option.some.injEq]
  have hc : c.ofClass? k = if admits k c then some c else none := by
    cases c with
    | option | union => cases hk
    | _ => rfl
  rw [hc]
  exact if_congr hadmits rfl rfl

theorem ofClass?_self (hk : c.class? = some k) : c.ofClass? k = some c := by
  rw [ofClass?_of_class hk, if_pos rfl]

theorem ofClass?_afterNulls (n : Nat) (c : Column) (k : ElementClass) :
    (afterNulls n c).ofClass? k = c.ofClass? k := by
  unfold afterNulls
  split <;> rfl

/-- The column of a class is a node, and of the class. -/
theorem of_ofClass? (h : c.ofClass? k = some d) : IsNode d c ∧ d.class? = some k := by
  induction c using Column.induct with
  | node c ih =>
    cases c with
    | option index content =>
      obtain ⟨hnode, hk⟩ := ih content (List.mem_singleton_self _) h
      exact ⟨.child (List.mem_singleton_self _) hnode, hk⟩
    | union tags index children current =>
      have hadmits := List.find?_some h
      exact ⟨.child (List.mem_of_find?_eq_some h) (.root d), admits_iff.mp hadmits⟩
    | _ =>
      obtain ⟨hadmits, hd⟩ := Option.ite_none_right_eq_some.mp h
      cases hd
      exact ⟨.root _, admits_iff.mp hadmits⟩

theorem Sound.isNode (hs : c.Sound) (h : IsNode d c) : d.Sound := by
  induction h with
  | root => exact hs
  | child hmem _ ih => exact ih (hs.children _ hmem)

theorem mem_children_of_child? (h : c.child? s = some d) : d ∈ c.children := by
  unfold child? at h
  split at h
  · cases h
    exact List.mem_singleton_self _
  · exact List.mem_of_getElem? h
  · obtain ⟨i, -, hi⟩ := Option.bind_eq_some_iff.mp h
    exact List.mem_of_getElem? hi
  · cases h

theorem IsNode.trans (hd : IsNode d c) (he : IsNode e d) : IsNode e c := by
  induction hd with
  | root => exact he
  | child hmem _ ih => exact .child hmem (ih he)

theorem isNode_of_step? (h : c.step? s = some d) : IsNode d c := by
  obtain ⟨e, he, hd⟩ := Option.bind_eq_some_iff.mp h
  exact (of_ofClass? he).1.trans (.child (mem_children_of_child? hd) (.root d))

theorem isNode_of_at? (h : c.at? path = some d) : IsNode d c := by
  induction path generalizing c with
  | nil =>
    cases h
    exact .root _
  | cons s path ih =>
    obtain ⟨e, he, hd⟩ := Option.bind_eq_some_iff.mp h
    exact (isNode_of_step? he).trans (ih hd)

/-- What is at a place is a node, and of the class. -/
theorem of_elementsAt? (h : c.elementsAt? path k = some d) :
    IsNode d c ∧ d.class? = some k := by
  obtain ⟨e, he, hd⟩ := Option.bind_eq_some_iff.mp h
  obtain ⟨hnode, hk⟩ := of_ofClass? hd
  exact ⟨(isNode_of_at? he).trans hnode, hk⟩

/-! ### What a push makes of what is at a place -/

/-- A column takes a push, or it takes a missing element because its container is closed, or it
stays as it is. -/
def Moves (o : Options) (p : Push) (c c' : Column) : Prop :=
  c' = c ∨ ∃ q, (q = p ∨ q = .null) ∧ Takes o c q c'

/-- What a push makes of what is at a place.  What may be there anew is told by `New`. -/
inductive Evolves (o : Options) (p : Push) (New : Column → Prop) :
    Option Column → Option Column → Prop
  /-- Nothing is there. -/
  | none : Evolves o p New none none
  /-- There is something new. -/
  | new {c : Column} (hc : New c) : Evolves o p New none (some c)
  /-- There is what has been there. -/
  | moved {c c' : Column} (h : Moves o p c c') : Evolves o p New (some c) (some c')

theorem Moves.refl (o : Options) (p : Push) (c : Column) : Moves o p c c := .inl rfl

theorem Takes.moves (h : Takes o c p c') : Moves o p c c' := .inr ⟨p, .inl rfl, h⟩

/-- What a missing element makes of a column below is made by the push that closed its
container. -/
theorem Moves.of_moves {q : Push} (hq : q = p ∨ q = .null) (h : Moves o q c c') :
    Moves o p c c' := by
  obtain rfl | ⟨r, hr, h⟩ := h
  · exact .refl o p c'
  · refine .inr ⟨r, ?_, h⟩
    rcases hr with rfl | rfl
    · exact hq
    · exact .inr rfl

/-- A slot that is filled takes a missing element, or has an element already. -/
theorem moves_fillSlot (row : Nat) (ha : c.isActive = false) : Moves o p c (fillSlot row c) := by
  rcases fillSlot_eq row c with he | ⟨he, -⟩
  · rw [he]
    exact .refl o p c
  · rw [he]
    exact .inr ⟨.null, .inr rfl, takes_null ha⟩

namespace Evolves

variable {New New' : Column → Prop} {x x' : Option Column}

theorem refl (x : Option Column) : Evolves o p New x x := by
  cases x with
  | none => exact .none
  | some c => exact .moved (.refl o p c)

theorem mono (hnew : ∀ c, New c → New' c) (h : Evolves o p New x x') : Evolves o p New' x x' := by
  cases h with
  | none => exact .none
  | new hc => exact .new (hnew _ hc)
  | moved h => exact .moved h

theorem of_moves {q : Push} (hq : q = p ∨ q = .null) (h : Evolves o q New x x') :
    Evolves o p New x x' := by
  cases h with
  | none => exact .none
  | new hc => exact .new hc
  | moved h => exact .moved (h.of_moves hq)

/-- What is found from a place on, if this is known of what is new there and of what has been
there. -/
theorem bind {f : Column → Option Column} (h : Evolves o p New x x')
    (hnew : ∀ c, New c → Evolves o p New' .none (f c))
    (hmoved : ∀ c c', x = some c → x' = some c' → Moves o p c c' →
      Evolves o p New' (f c) (f c')) : Evolves o p New' (x.bind f) (x'.bind f) := by
  cases h with
  | none => exact .none
  | new hc => exact hnew _ hc
  | moved h => exact hmoved _ _ rfl rfl h

/-- What has been at a place is there. -/
theorem exists_moved (h : Evolves o p New x x') (hx : x = some c) :
    ∃ c', x' = some c' ∧ Moves o p c c' := by
  cases h with
  | none | new => cases hx
  | moved h =>
    cases hx
    exact ⟨_, rfl, h⟩

end Evolves

/-- Nothing but missing elements, which a new place begins with. -/
def IsUnknown (c : Column) : Prop := ∃ n, c = .unknown n

/-- A column that has just been begun, by a push of a class. -/
def IsBegun (o : Options) (p : Push) (k : ElementClass) (c : Column) : Prop :=
  p.elementClass? = some k ∧ c = first o p

/-- One of several columns is moved, and keeps its class. -/
theorem evolves_find? {tag : Nat} (hc : cs[tag]? = some c) (hclass : c'.class? = c.class?)
    (h : Moves o p c c') {New : Column → Prop} (k : ElementClass) :
    Evolves o p New (cs.find? (admits k)) ((cs.set tag c').find? (admits k)) := by
  have hadmits : admits k c' = admits k c := by
    rw [Bool.eq_iff_iff, admits_iff, admits_iff, hclass]
  induction cs generalizing tag with
  | nil => cases hc
  | cons d ds ih =>
    cases tag with
    | zero =>
      cases hc
      rw [List.set_cons_zero, List.find?_cons, List.find?_cons, hadmits]
      split
      · exact .moved h
      · exact .refl _
    | succ tag =>
      rw [List.set_cons_succ, List.find?_cons, List.find?_cons]
      split
      · exact .refl _
      · exact ih hc

/-- A push of a class begins a column of that class. -/
theorem evolves_first (hp : p.elementClass? = some k') (k : ElementClass) :
    Evolves o p (IsBegun o p k) none ((first o p).ofClass? k) := by
  rw [ofClass?_of_class (class?_first hp)]
  split
  · next h => exact .new ⟨by rw [hp, h], rfl⟩
  · exact .none

theorem find?_singleton (hk : c.class? = some k') (k : ElementClass) :
    [c].find? (admits k) = c.ofClass? k := by
  rw [ofClass?_of_class hk, List.find?_singleton]
  exact if_congr (by rw [admits_iff, hk, Option.some.injEq]) rfl rfl

/-- One more column is begun beside several. -/
theorem evolves_concat (hp : p.elementClass? = some k') (cs : List Column) (k : ElementClass) :
    Evolves o p (IsBegun o p k) (cs.find? (admits k)) ((cs ++ [first o p]).find? (admits k)) := by
  rw [List.find?_append, find?_singleton (class?_first hp)]
  cases cs.find? (admits k) with
  | none => exact evolves_first hp k
  | some d => exact .refl (some d)

/-- A column that keeps its class. -/
theorem evolves_of_class (h : Takes o c p c') (hk : c.class? = some k') (hk' : c'.class? = some k')
    {New : Column → Prop} (k : ElementClass) : Evolves o p New (c.ofClass? k) (c'.ofClass? k) := by
  rw [ofClass?_of_class hk, ofClass?_of_class hk']
  split
  · exact .moved h.moves
  · exact .none

/-- A child of a union that takes a push keeps its class. -/
theorem UnionSound.class?_eq {tags index : Array Nat} {children : List Column}
    {current : Option Nat} {tag : Nat} (hu : UnionSound tags index children current)
    (hc : children[tag]? = some c) (h : Takes o c p c')
    (hkeep : c.isActive = true ∨ ∀ k, c.class? = some k → p.elementClass? = some k) :
    c'.class? = c.class? := by
  obtain ⟨k, hk⟩ := Option.isSome_iff_exists.mp (hu.classes c (List.mem_of_getElem? hc))
  rw [hk]
  exact h.class?_eq hk (hkeep.imp_right fun hp => hp k hk)

/-- **What a push makes of the column of a class**: it takes the push if it is there, and is begun
if the push is of the class. -/
theorem Takes.evolves_ofClass? (hs : c.Sound) (h : Takes o c p c') (k : ElementClass) :
    Evolves o p (IsBegun o p k) (c.ofClass? k) (c'.ofClass? k) := by
  induction h with
  | unknown_null n => exact .none
  | unknown_first n hp =>
    rw [ofClass?_afterNulls]
    exact evolves_first hp k
  | option_null => exact .refl _
  | option_present _ _ _ ih => exact ih (hs.children _ (List.mem_singleton_self _))
  | option_open _ _ ih => exact ih (hs.children _ (List.mem_singleton_self _))
  | first_null => exact .refl _
  | own hc hp hk => exact evolves_of_class (.own hc hp hk) hk (class?_accept hp hk) k
  | other hc hp hk =>
    rw [← find?_singleton hk]
    exact evolves_concat hp _ k
  | list_end hc => exact evolves_of_class (.list_end hc) rfl rfl k
  | list_item h => exact evolves_of_class (.list_item h) rfl rfl k
  | tuple_index ha hc hlen => exact evolves_of_class (.tuple_index ha hc hlen) rfl rfl k
  | tuple_end ha => exact evolves_of_class (.tuple_end ha) rfl (by simp [class?, fillSlots]) k
  | tuple_slot hc hlen h =>
    exact evolves_of_class (.tuple_slot hc hlen h) rfl (by simp [class?]) k
  | record_field ha hi hc hlen => exact evolves_of_class (.record_field ha hi hc hlen) rfl rfl k
  | record_new ha hi hcheck => exact evolves_of_class (.record_new ha hi hcheck) rfl rfl k
  | record_end ha => exact evolves_of_class (.record_end ha) rfl rfl k
  | record_slot hc hlen h => exact evolves_of_class (.record_slot hc hlen h) rfl rfl k
  | @union_own tags index children tag c c' p k' hp ht hc h =>
    have hunion : UnionSound tags index children none := hs.node
    have hclass : ∀ k, c.class? = some k → p.elementClass? = some k := by
      intro k hk
      obtain ⟨hlt, hadmits, -⟩ := List.findIdx?_eq_some_iff_getElem.mp ht
      rw [(List.getElem?_eq_some_iff.mp hc).2, admits_iff, hk] at hadmits
      rw [hp, hadmits]
    exact evolves_find? hc (hunion.class?_eq hc h (.inr hclass)) h.moves k
  | union_new hp => exact evolves_concat hp _ k
  | @union_open tags index children tag c c' p hc h =>
    have hunion : UnionSound tags index children (some tag) := hs.node
    have ha : c.isActive = true := (hunion.active_iff tag c hc).mpr rfl
    exact evolves_find? hc (hunion.class?_eq hc h (.inl ha)) h.moves k

/-- One of several columns is moved. -/
theorem evolves_set {i : Nat} (hc : cs[i]? = some c) (h : Moves o p c c')
    {New : Column → Prop} (j : Nat) : Evolves o p New cs[j]? (cs.set i c')[j]? := by
  by_cases hij : i = j
  · subst hij
    rw [hc, getElem?_set_of_getElem? hc c']
    exact .moved h
  · rw [List.getElem?_set_ne hij]
    exact .refl _

/-- Slots none of which is open are filled. -/
theorem evolves_fillSlots {n : Nat} {slot : Option Nat} (hs : SlotsSound cs n (.filling slot))
    (ha : isSlotActive cs (.filling slot) = false) {New : Column → Prop} (row j : Nat) :
    Evolves o p New cs[j]? (fillSlots row cs)[j]? := by
  rw [fillSlots, List.getElem?_map]
  cases hc : cs[j]? with
  | none => exact .none
  | some c => exact .moved (moves_fillSlot row (hs.not_active ha (List.mem_of_getElem? hc)))

/-- What a push makes of the columns of fields that keep their keys. -/
theorem evolves_field {name : Option String} {fields fields' : List (String × Column)}
    {n n' : Nat} {filling filling' : Filling} {settled settled' declared : Bool}
    (hkeys : fields'.map Prod.fst = fields.map Prod.fst) {New : Column → Prop} (s : PathStep)
    (h : ∀ i : Nat, Evolves o p New (columnsOf fields)[i]? (columnsOf fields')[i]?) :
    Evolves o p New ((record name fields n filling settled declared).child? s)
      ((record name fields' n' filling' settled' declared).child? s) := by
  cases s with
  | item | slot => exact .none
  | field name' key =>
    simp only [child?, fieldIndex?_congr key hkeys]
    cases fieldIndex? fields key with
    | none => exact .none
    | some i => exact h i

/-- A new field has had a missing element in every record so far. -/
theorem evolves_newField {name : Option String} {fields : List (String × Column)}
    {n : Nat} {filling filling' : Filling} {settled declared : Bool} {key : String}
    (s : PathStep) :
    Evolves o p IsUnknown ((record name fields n filling settled declared).child? s)
      ((record name (fields ++ [(key, .unknown n)]) n filling' settled declared).child? s) := by
  cases s with
  | item | slot => exact .none
  | field name' key' =>
    simp only [child?, columnsOf_concat, fieldIndex?_eq, List.map_append, List.findIdx?_append]
    cases hi : (fields.map Prod.fst).findIdx? (· == key') with
    | none =>
      by_cases hkey : key = key'
      · have hlen : (columnsOf fields ++ [unknown n])[fields.length]? = some (.unknown n) := by
          rw [← columnsOf_length, List.getElem?_concat_length]
        simpa [hkey, hlen] using Evolves.new ⟨n, rfl⟩
      · simpa [hkey] using Evolves.none
    | some i =>
      have hlt : i < (columnsOf fields).length := by
        simpa [columnsOf] using (List.findIdx?_eq_some_iff_findIdx_eq.mp hi).1
      simp only [Option.some_or, Option.bind_some, List.getElem?_append_left hlt]
      exact .refl _

theorem child?_accept (c : Column) (p : Push) (s : PathStep) :
    (c.accept p).child? s = c.child? s := by
  cases c with
  | list | tuple | record => cases p <;> cases s <;> rfl
  | _ => cases p <;> rfl

/-- The columns below a column that keeps its class stay, take the push, or are filled. -/
theorem Takes.evolves_child? (hs : c.Sound) (h : Takes o c p c') (hk : c.class? = some k)
    (hk' : c'.class? = some k) (s : PathStep) :
    Evolves o p IsUnknown (c.child? s) (c'.child? s) := by
  cases h with
  | unknown_null | unknown_first | option_null | option_present | option_open | union_own
  | union_new | union_open => cases hk
  | first_null | other => cases hk'
  | own =>
    rw [child?_accept]
    exact .refl _
  | list_end => cases s <;> exact .refl _
  | list_item h =>
    cases s with
    | item => exact .moved h.moves
    | slot | field => exact .none
  | tuple_index => cases s <;> exact .refl _
  | tuple_end ha =>
    cases s with
    | slot arity i => exact evolves_fillSlots hs.node ha _ i
    | item | field => exact .none
  | tuple_slot hc hlen h =>
    cases s with
    | slot arity i => exact evolves_set hc h.moves i
    | item | field => exact .none
  | record_field => exact evolves_field rfl s fun i => .refl _
  | record_new => exact evolves_newField s
  | record_end ha =>
    refine evolves_field (keys_fillFields _ _) s fun i => ?_
    rw [columnsOf_fillFields]
    exact evolves_fillSlots hs.node.1 ha _ i
  | record_slot hc hlen h =>
    refine evolves_field (keys_setField _ _ _) s fun i => ?_
    rw [columnsOf_setField]
    exact evolves_set hc h.moves i

/-- Below a column that has just been begun, there is nothing but missing elements. -/
theorem evolves_child?_first (hp : p.elementClass? = some k) (s : PathStep) :
    Evolves o p IsUnknown none ((first o p).child? s) := by
  cases hc : (first o p).child? s with
  | none => exact .none
  | some c => exact .new ⟨0, eq_unknown_of_mem_children_first hp (mem_children_of_child? hc)⟩

/-- What a push makes of the column that a step leads to. -/
theorem Moves.evolves_child? (hs : c.Sound) (h : Moves o p c c') (hk : c.class? = some k)
    (hk' : c'.class? = some k) (s : PathStep) :
    Evolves o p IsUnknown (c.child? s) (c'.child? s) := by
  obtain rfl | ⟨q, hq, h⟩ := h
  · exact .refl _
  · exact (h.evolves_child? hs hk hk' s).of_moves hq

theorem Moves.evolves_ofClass? (hs : c.Sound) (h : Moves o p c c') (k : ElementClass) :
    Evolves o p (IsBegun o p k) (c.ofClass? k) (c'.ofClass? k) := by
  obtain rfl | ⟨q, hq, h⟩ := h
  · exact .refl _
  · have hq' := h.evolves_ofClass? hs k
    rcases hq with rfl | rfl
    · exact hq'
    · refine (hq'.mono ?_).of_moves (.inr rfl)
      rintro c ⟨hnull, -⟩
      cases hnull

/-- What a push makes of the column that a step leads to. -/
theorem Moves.evolves_step? (hs : c.Sound) (h : Moves o p c c') (s : PathStep) :
    Evolves o p IsUnknown (c.step? s) (c'.step? s) := by
  refine (h.evolves_ofClass? hs s.outer).bind ?_ ?_
  · rintro d ⟨hp, rfl⟩
    exact evolves_child?_first hp s
  · intro d d' hd hd' hmoves
    obtain ⟨hnode, hk⟩ := of_ofClass? hd
    exact hmoves.evolves_child? (hs.isNode hnode) hk (of_ofClass? hd').2 s

/-- What a push makes of the column that steps lead to. -/
theorem Moves.evolves_at? (hs : c.Sound) (h : Moves o p c c') (path : List PathStep) :
    Evolves o p IsUnknown (c.at? path) (c'.at? path) := by
  induction path generalizing c c' with
  | nil => exact .moved h
  | cons s path ih =>
    refine (h.evolves_step? hs s).bind ?_ fun d d' hd _ hmoves =>
      ih (hs.isNode (isNode_of_step? hd)) hmoves
    rintro d ⟨n, rfl⟩
    cases path with
    | nil => exact .new ⟨n, rfl⟩
    | cons s path => exact .none

/-- **What a push makes of the column of a class at a place**: it stays or takes the push or a
missing element, and there is a new one only if the push is of the class. -/
theorem Takes.evolves_elementsAt? (hs : c.Sound) (h : Takes o c p c') (path : List PathStep)
    (k : ElementClass) :
    Evolves o p (IsBegun o p k) (c.elementsAt? path k) (c'.elementsAt? path k) := by
  refine (h.moves.evolves_at? hs path).bind ?_ ?_
  · rintro d ⟨n, rfl⟩
    exact .none
  · intro d d' hd _ hmoves
    exact hmoves.evolves_ofClass? (hs.isNode (isNode_of_at? hd)) k

/-! ### The place of a column -/

/-- Where the elements of a column are, there are those of a column around it. -/
theorem elementsAt?_of_ofClass? (h : ∀ k d, c.ofClass? k = some d → c'.ofClass? k = some d)
    (hd : c.elementsAt? path k = some d) : c'.elementsAt? path k = some d := by
  cases path with
  | nil => exact h k d hd
  | cons s path =>
    obtain ⟨e, he, hd⟩ := Option.bind_eq_some_iff.mp hd
    obtain ⟨f, hf, he⟩ := Option.bind_eq_some_iff.mp he
    obtain ⟨b, hb, hf⟩ := Option.bind_eq_some_iff.mp hf
    have hstep : c'.step? s = some f := by rw [step?, h _ b hb, Option.bind_some, hf]
    rw [elementsAt?, at?, hstep, Option.bind_some, he]
    exact hd

/-- A step further down. -/
theorem elementsAt?_step (hk : c.class? = some s.outer) (hc : c.child? s = some c')
    (h : c'.elementsAt? path k = some d) : c.elementsAt? (s :: path) k = some d := by
  have hstep : c.step? s = some c' := by rw [step?, ofClass?_self hk, Option.bind_some, hc]
  rw [elementsAt?, at?, hstep]
  exact h

/-- The elements of a child of a union, which is the only one of its class. -/
theorem elementsAt?_union {tags index : Array Nat} {children : List Column}
    {current : Option Nat} (hs : UnionSound tags index children current) (hc : c ∈ children)
    (h : c.elementsAt? path k = some d) :
    (union tags index children current).elementsAt? path k = some d := by
  refine elementsAt?_of_ofClass? (fun k' e he => ?_) h
  obtain ⟨k'', hk''⟩ := Option.isSome_iff_exists.mp (hs.classes c hc)
  rw [ofClass?_of_class hk''] at he
  obtain ⟨hkk, he⟩ := Option.ite_none_right_eq_some.mp he
  rw [← Option.some.inj he]
  rw [hkk] at hk''
  change children.find? (admits k') = some c
  cases hfind : children.find? (admits k') with
  | none => exact absurd (admits_iff.mpr hk'') (List.find?_eq_none.mp hfind c hc)
  | some b =>
    have hb := admits_iff.mp (List.find?_some hfind)
    rw [List.inj_on_of_nodup_map hs.distinct (List.mem_of_find?_eq_some hfind) hc
      (hb.trans hk''.symm)]

/-- A field that stands under a key is found there. -/
theorem child?_field {name : Option String} {fields : List (String × Column)} {n i : Nat}
    {filling : Filling} {settled declared : Bool} {key : String}
    (hs : (record name fields n filling settled declared).Sound)
    (hkey : (fields.map Prod.fst)[i]? = some key) (hc : (columnsOf fields)[i]? = some c) :
    (record name fields n filling settled declared).child? (.field name key) = some c := by
  rw [child?, fieldIndex?_of_getElem? hs.node.2 hkey]
  exact hc

theorem elementsAt?_option (index : Array (Option Nat)) (h : c.elementsAt? path k = some d) :
    (option index c).elementsAt? path k = some d :=
  elementsAt?_of_ofClass? (c := c) (fun _ _ he => he) h

/-- **Every column of one class stands at a place.** -/
theorem exists_path (hs : c.Sound) (h : IsNode d c) (hk : d.class? = some k) :
    ∃ path, c.elementsAt? path k = some d := by
  induction h with
  | root => exact ⟨[], ofClass?_self hk⟩
  | @child c d e hmem _ ih =>
    obtain ⟨path, hpath⟩ := ih (hs.children d hmem) hk
    cases c with
    | option index content =>
      cases List.mem_singleton.mp hmem
      exact ⟨path, elementsAt?_option index hpath⟩
    | list offsets content isOpen =>
      cases List.mem_singleton.mp hmem
      exact ⟨.item :: path, elementsAt?_step rfl rfl hpath⟩
    | tuple slots n filling =>
      obtain ⟨i, hi⟩ := List.mem_iff_getElem?.mp hmem
      exact ⟨.slot slots.length i :: path, elementsAt?_step rfl hi hpath⟩
    | record name fields n filling settled declared =>
      obtain ⟨i, hi⟩ := List.mem_iff_getElem?.mp hmem
      have hlt : i < fields.length := by
        simpa [children, columnsOf] using (List.getElem?_eq_some_iff.mp hi).1
      have hkey : (fields.map Prod.fst)[i]? = some fields[i].1 := by simp [hlt]
      exact ⟨.field name fields[i].1 :: path, elementsAt?_step rfl (child?_field hs hkey hi) hpath⟩
    | union tags index children current => exact ⟨path, elementsAt?_union hs.node hmem hpath⟩
    | _ => cases hmem

/-- **The innermost column keeps its place**, whatever it is given. -/
theorem Within.exists_path {W : Column → Column} (hW : Within W) :
    ∃ path, ∀ d k, d.class? = some k → (W d).Sound → (W d).elementsAt? path k = some d := by
  induction hW with
  | here => exact ⟨[], fun d k hk _ => ofClass?_self hk⟩
  | option index _ ih =>
    obtain ⟨path, hpath⟩ := ih
    refine ⟨path, fun d k hk hs => elementsAt?_option index (hpath d k hk ?_)⟩
    exact hs.children _ (List.mem_singleton_self _)
  | list offsets _ ih =>
    obtain ⟨path, hpath⟩ := ih
    refine ⟨.item :: path, fun d k hk hs => elementsAt?_step rfl rfl (hpath d k hk ?_)⟩
    exact hs.children _ (List.mem_singleton_self _)
  | @tuple W slots n i hi _ ih =>
    obtain ⟨path, hpath⟩ := ih
    refine ⟨.slot slots.length i :: path, fun d k hk hs => ?_⟩
    have hget : (slots.set i (W d))[i]? = some (W d) := List.getElem?_set_self hi
    refine elementsAt?_step (by simp [class?, PathStep.outer]) hget (hpath d k hk ?_)
    exact hs.children _ (List.mem_of_getElem? hget)
  | @record W name fields n i settled declared hi _ ih =>
    obtain ⟨path, hpath⟩ := ih
    refine ⟨.field name fields[i].1 :: path, fun d k hk hs => ?_⟩
    have hkey : ((setField fields i (W d)).map Prod.fst)[i]? = some fields[i].1 := by simp [hi]
    have hget := columnsOf_setField_self hi (W d)
    refine elementsAt?_step rfl (child?_field hs hkey hget) (hpath d k hk ?_)
    exact hs.children _ (List.mem_of_getElem? hget)
  | @union W tags index children tag ht _ ih =>
    obtain ⟨path, hpath⟩ := ih
    refine ⟨path, fun d k hk hs => ?_⟩
    have hmem : W d ∈ children.set tag (W d) := List.mem_of_getElem? (List.getElem?_set_self ht)
    exact elementsAt?_union hs.node hmem (hpath d k hk (hs.children _ hmem))

/-! ### Clearing -/

theorem ofClass?_clear_of_class (hk : c.class? = some k') (k : ElementClass) :
    c.clear.ofClass? k = (c.ofClass? k).map clear := by
  rw [ofClass?_of_class hk, ofClass?_of_class ((class?_clear c).trans hk)]
  split <;> rfl

theorem ofClass?_clear (c : Column) (k : ElementClass) :
    c.clear.ofClass? k = (c.ofClass? k).map clear := by
  induction c using Column.induct with
  | node c ih =>
    cases c with
    | option index content =>
      rw [clear]
      exact ih content (List.mem_singleton_self _)
    | union tags index children current =>
      have hadmits : (admits k ∘ clear) = admits k := by
        funext d
        rw [Function.comp_apply, Bool.eq_iff_iff, admits_iff, admits_iff, class?_clear]
      rw [clear, clearAll_eq]
      change (children.map clear).find? _ = (children.find? _).map clear
      rw [List.find?_map, hadmits]
    | unknown n => rfl
    | _ => exact ofClass?_clear_of_class rfl k

theorem child?_clear (c : Column) (s : PathStep) : c.clear.child? s = (c.child? s).map clear := by
  cases c with
  | list => cases s <;> simp [clear, child?]
  | tuple => cases s <;> simp [clear, child?, clearAll_eq]
  | record name fields n filling settled declared =>
    cases s with
    | item | slot => simp [clear, child?]
    | field name' key =>
      simp only [clear, child?, fieldIndex?_congr key (keys_clearFields fields),
        columnsOf_clearFields, List.getElem?_map, Option.map_bind]
      rfl
  | _ => simp [clear, child?]

theorem step?_clear (c : Column) (s : PathStep) : c.clear.step? s = (c.step? s).map clear := by
  rw [step?, step?, ofClass?_clear, Option.bind_map, Option.map_bind]
  exact Option.bind_congr fun d _ => child?_clear d s

theorem at?_clear (c : Column) (path : List PathStep) :
    c.clear.at? path = (c.at? path).map clear := by
  induction path generalizing c with
  | nil => rfl
  | cons s path ih =>
    rw [at?, at?, step?_clear, Option.bind_map, Option.map_bind]
    exact Option.bind_congr fun d _ => ih d

/-- **What is at a place of a cleared column** is what was there, cleared. -/
theorem elementsAt?_clear (c : Column) (path : List PathStep) (k : ElementClass) :
    c.clear.elementsAt? path k = (c.elementsAt? path k).map clear := by
  rw [elementsAt?, elementsAt?, at?_clear, Option.bind_map, Option.map_bind]
  exact Option.bind_congr fun d _ => ofClass?_clear d k

end Column

end Columnar
