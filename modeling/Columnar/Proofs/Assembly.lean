import Columnar.Builder
import Columnar.Proofs.Utf8

/-!
# The values that pushes assemble

Pushes make values one after another, and a value that is a container is made piece by
piece.  What is under way is a stack of containers, each waiting for what is made inside
it.  Neither columns nor refusals play a part here: the stack says what pushes mean, and
columns are measured against it.

A slot of a tuple that is given no value is missing, and so is a field that is selected and
given none.

## Main definitions

* `Value.class?`, `Push.value?` — the class of a value, and the value of a flat push.
* `Value.items`, `Value.slot?`, `Value.field?`, `Value.keys` — the parts of a value.
* `Unfinished` — a container that is still open.
* `assemble` — a push into the containers under way.
* `Assembly` — complete values and what is under way after them.

## Main results

* `Assembly.takeAll_itemPushes` — the pushes of values assemble these values.
-/

namespace Columnar

/-! ### Parts of values -/

namespace Value

/-- The class of a value; a missing one has none. -/
def class? : Value → Option ElementClass
  | .null => none
  | .bool _ => some .bool
  | .int _ => some .number
  | .real _ => some .number
  | .complex _ => some .number
  | .datetime _ unit => some (.time .datetime unit)
  | .timedelta _ unit => some (.time .timedelta unit)
  | .string _ => some (.string .utf8)
  | .bytes _ => some (.string .bytes)
  | .list _ => some .list
  | .tuple items => some (.tuple items.length)
  | .record name _ => some (.record name)

/-- The items of a list. -/
def items : Value → List Value
  | .list items => items
  | _ => []

/-- The value in a slot of a tuple, missing if the tuple has no such slot. -/
def slot? (i : Nat) : Value → Option Value
  | .tuple items => some ((items[i]?).getD .null)
  | _ => none

/-- The value of a field of a record, missing if the record has no such field. -/
def field? (key : String) : Value → Option Value
  | .record _ fields => some ((lookup fields key).getD .null)
  | _ => none

/-- The keys of a record. -/
def keys : Value → List String
  | .record _ fields => fields.map Prod.fst
  | _ => []

@[simp] theorem class?_time (kind : TimeKind) (n : Int64) (unit : TimeUnit) :
    (time kind n unit).class? = some (.time kind unit) := by
  cases kind <;> rfl

end Value

/-! ### Containers under way -/

/-- A container that is still open. -/
inductive Unfinished
  /-- A list with the items it has. -/
  | list (items : List Value)
  /-- A tuple with the slots that have a value, and the selected slot. -/
  | tuple (slots : List (Option Value)) (slot : Option Nat)
  /-- A record with the fields that were selected, the values of those that have one, and the
  selected field. -/
  | record (name : Option String) (entries : List (String × Option Value)) (key : Option String)

namespace Unfinished

/-- The class of the container. -/
def elementClass : Unfinished → ElementClass
  | list _ => .list
  | tuple slots _ => .tuple slots.length
  | record name _ _ => .record name

/-- The container when it is closed. -/
def value : Unfinished → Value
  | list items => .list items
  | tuple slots _ => .tuple (slots.map fun v => v.getD .null)
  | record name entries _ => .record name (entries.map fun e => (e.1, e.2.getD .null))

/-- Adds a field without a value, unless one of its key has none yet. -/
def addEntry (entries : List (String × Option Value)) (key : String) :
    List (String × Option Value) :=
  match lookup entries key with
  | some none => entries
  | _ => entries ++ [(key, none)]

/-- Gives a value to the first field of a key that has none. -/
def fillEntry : List (String × Option Value) → String → Value → List (String × Option Value)
  | [], _, _ => []
  | (k, some v) :: rest, key, new => (k, some v) :: fillEntry rest key new
  | (k, none) :: rest, key, new =>
    if k = key then (k, some new) :: rest else (k, none) :: fillEntry rest key new

/-- Selects a slot. -/
def select : Unfinished → Push → Unfinished
  | tuple slots _, .index i => tuple slots (some i)
  | record name entries _, .field key _ => record name (addEntry entries key) (some key)
  | f, _ => f

/-- Takes a value that has been made inside. -/
def take : Unfinished → Value → Unfinished
  | list items, v => list (items ++ [v])
  | tuple slots (some i), v => tuple (slots.set i (some v)) (some i)
  | record name entries (some key), v => record name (fillEntry entries key v) (some key)
  | f, _ => f

/-- Takes what has been made inside, if anything has. -/
def deliver (f : Unfinished) : Option Value → Unfinished
  | none => f
  | some v => f.take v

@[simp] theorem deliver_none (f : Unfinished) : f.deliver none = f := rfl

@[simp] theorem deliver_some (f : Unfinished) (v : Value) : f.deliver (some v) = f.take v := rfl

theorem deliver_list (items : List Value) (v? : Option Value) :
    (list items).deliver v? = list (items ++ v?.toList) := by
  cases v? with
  | none => rw [deliver_none, Option.toList_none, List.append_nil]
  | some v => rfl

@[simp] theorem class?_value (f : Unfinished) : f.value.class? = some f.elementClass := by
  cases f <;> simp [value, Value.class?, elementClass]

@[simp] theorem elementClass_select (f : Unfinished) (p : Push) :
    (f.select p).elementClass = f.elementClass := by
  cases f <;> cases p <;> rfl

@[simp] theorem elementClass_take (f : Unfinished) (v : Value) :
    (f.take v).elementClass = f.elementClass := by
  cases f with
  | list items => rfl
  | tuple slots slot => cases slot <;> simp [take, elementClass]
  | record name entries key => cases key <;> rfl

@[simp] theorem elementClass_deliver (f : Unfinished) (v? : Option Value) :
    (f.deliver v?).elementClass = f.elementClass := by
  cases v? <;> simp

end Unfinished

namespace Push

/-- The value of a push that is a whole value. -/
def value? : Push → Option Value
  | .null => some .null
  | .bool b => some (.bool b)
  | .int n => some (.int n)
  | .real x => some (.real x)
  | .complex z => some (.complex z)
  | .time kind n unit => some (.time kind n unit)
  | .string .utf8 data => some (.string (Utf8.lossy data))
  | .string .bytes data => some (.bytes data)
  | _ => none

/-- The container that a push opens. -/
def unfinished? : Push → Option Unfinished
  | .beginList => some (.list [])
  | .beginTuple n => some (.tuple (List.replicate n none) none)
  | .beginRecord name => some (.record name [] none)
  | _ => none

end Push

/-- A push into the containers under way, the outermost first: the value that is complete
with it, and what is under way after it.  Closing and selecting concern the innermost
container, and what is complete below a container goes into it. -/
def assemble : List Unfinished → Push → Option Value × List Unfinished
  | [], p => (p.value?, p.unfinished?.toList)
  | f :: inner, p =>
    if inner.isEmpty && p.closes?.isSome then (some f.value, [])
    else if inner.isEmpty && p.selects?.isSome then (none, [f.select p])
    else (none, f.deliver (assemble inner p).1 :: (assemble inner p).2)

@[simp] theorem assemble_nil (p : Push) : assemble [] p = (p.value?, p.unfinished?.toList) := rfl

theorem assemble_close {f : Unfinished} {p : Push} (h : p.closes?.isSome = true) :
    assemble [f] p = (some f.value, []) := by
  simp [assemble, h]

theorem assemble_select {f : Unfinished} {p : Push} (h : p.selects?.isSome = true) :
    assemble [f] p = (none, [f.select p]) := by
  have hc : p.closes? = none := by cases p <;> first | rfl | cases h
  simp [assemble, h, hc]

/-- A push that concerns a container further in, or begins an element in the innermost one. -/
theorem assemble_inner {f : Unfinished} {inner : List Unfinished} {p : Push}
    (h : inner ≠ [] ∨ p = .null ∨ ∃ k, p.elementClass? = some k) :
    assemble (f :: inner) p = (none, f.deliver (assemble inner p).1 :: (assemble inner p).2) := by
  have hno : (inner.isEmpty && p.closes?.isSome) = false ∧
      (inner.isEmpty && p.selects?.isSome) = false := by
    rcases h with h | rfl | ⟨k, hk⟩
    · simp [h]
    · simp [Push.closes?, Push.selects?]
    · cases p <;> first | exact ⟨Bool.and_false _, Bool.and_false _⟩ | cases hk
  rw [assemble, hno.1, hno.2]
  rfl

/-- As many containers are under way as pushes have opened and not closed. -/
theorem length_assemble (stack : List Unfinished) (p : Push) :
    (assemble stack p).2.length = Builder.depthAfter p stack.length := by
  induction stack with
  | nil => cases p <;> rfl
  | cons f inner ih =>
    unfold assemble
    split
    · next h =>
      rw [Bool.and_eq_true] at h
      rw [List.isEmpty_iff.mp h.1]
      cases p <;> first | rfl | cases h.2
    · split
      · next h =>
        rw [Bool.and_eq_true] at h
        rw [List.isEmpty_iff.mp h.1]
        cases p <;> first | rfl | cases h.2
      · next h _ =>
        simp only [List.length_cons, ih]
        unfold Builder.depthAfter
        split
        · rfl
        · split
          · next hc =>
            have hpos : inner ≠ [] := by
              rintro rfl
              exact h (by rw [hc]; rfl)
            have hlength := List.length_pos_iff.mpr hpos
            omega
          · rfl

/-! ### Assemblies -/

/-- Gives a value to the innermost container. -/
def deliverInside : List Unfinished → Value → List Unfinished
  | [], _ => []
  | [f], v => [f.take v]
  | f :: g :: inner, v => f :: deliverInside (g :: inner) v

theorem deliverInside_concat (stack : List Unfinished) (f : Unfinished) (v : Value) :
    deliverInside (stack ++ [f]) v = stack ++ [f.take v] := by
  induction stack with
  | nil => rfl
  | cons g stack ih =>
    obtain ⟨h, rest, hrest⟩ := List.exists_cons_of_ne_nil (List.concat_ne_nil f stack)
    rw [List.cons_append, hrest, deliverInside, ← hrest, ih, List.cons_append]

/-- Complete values, and what is under way after them, the outermost container first. -/
structure Assembly where
  /-- The complete values. -/
  done : List Value
  /-- The open containers. -/
  stack : List Unfinished

namespace Assembly

/-- Nothing, neither complete nor under way. -/
def empty : Assembly := ⟨[], []⟩

/-- The assembly after a push. -/
def take (s : Assembly) (p : Push) : Assembly :=
  ⟨s.done ++ (assemble s.stack p).1.toList, (assemble s.stack p).2⟩

/-- The assembly after several pushes. -/
def takeAll (s : Assembly) (ps : List Push) : Assembly := ps.foldl take s

/-- The assembly after a whole value. -/
def give (s : Assembly) (v : Value) : Assembly :=
  match s.stack with
  | [] => ⟨s.done ++ [v], []⟩
  | f :: inner => ⟨s.done, deliverInside (f :: inner) v⟩

@[simp] theorem takeAll_nil (s : Assembly) : s.takeAll [] = s := rfl

@[simp] theorem takeAll_cons (s : Assembly) (p : Push) (ps : List Push) :
    s.takeAll (p :: ps) = (s.take p).takeAll ps := rfl

@[simp] theorem takeAll_append (s : Assembly) (ps qs : List Push) :
    s.takeAll (ps ++ qs) = (s.takeAll ps).takeAll qs :=
  List.foldl_append

theorem give_concat (done : List Value) (stack : List Unfinished) (f : Unfinished) (v : Value) :
    give ⟨done, stack ++ [f]⟩ v = ⟨done, stack ++ [f.take v]⟩ := by
  obtain ⟨g, rest, h⟩ := List.exists_cons_of_ne_nil (List.concat_ne_nil f stack)
  rw [give, h]
  simp only
  rw [← h, deliverInside_concat]

/-- A push that is a whole value. -/
theorem take_value {p : Push} {v : Value} (h : p.value? = some v) (s : Assembly) :
    s.take p = s.give v := by
  have hopen : p.unfinished? = none := by
    cases p <;> first | rfl | cases h
  have hbegins : p = .null ∨ ∃ k, p.elementClass? = some k := by
    cases p <;> first | exact .inl rfl | exact .inr ⟨_, rfl⟩ | cases h
  have hassemble : ∀ (f : Unfinished) (inner : List Unfinished),
      assemble (f :: inner) p = (none, deliverInside (f :: inner) v) := by
    intro f inner
    induction inner generalizing f with
    | nil => simp [assemble_inner (.inr hbegins), h, hopen, deliverInside]
    | cons g inner ih =>
      rw [assemble_inner (.inr hbegins), ih]
      rfl
  obtain ⟨done, stack⟩ := s
  cases stack with
  | nil => simp [take, give, h, hopen]
  | cons f inner => simp [take, give, hassemble]

/-- A push that opens a container. -/
theorem take_open {p : Push} {f : Unfinished} (h : p.unfinished? = some f) (s : Assembly) :
    s.take p = ⟨s.done, s.stack ++ [f]⟩ := by
  have hvalue : p.value? = none := by
    cases p <;> first | rfl | cases h
  have hbegins : ∃ k, p.elementClass? = some k := by
    cases p <;> first | exact ⟨_, rfl⟩ | cases h
  have hassemble : ∀ stack : List Unfinished, assemble stack p = (none, stack ++ [f]) := by
    intro stack
    induction stack with
    | nil => simp [h, hvalue]
    | cons g inner ih => simp [assemble_inner (.inr (.inr hbegins)), ih]
  simp [take, hassemble]

/-- A push that closes the innermost container. -/
theorem take_close {p : Push} (h : p.closes?.isSome = true) (done : List Value)
    (stack : List Unfinished) (f : Unfinished) :
    take ⟨done, stack ++ [f]⟩ p = give ⟨done, stack⟩ f.value := by
  -- the value goes to the container just outside the one that is closed
  have hassemble : ∀ (g : Unfinished) (inner : List Unfinished),
      assemble (g :: inner ++ [f]) p = (none, deliverInside (g :: inner) f.value) := by
    intro g inner
    induction inner generalizing g with
    | nil =>
      rw [List.cons_append, assemble_inner (.inl (by simp)), List.nil_append, assemble_close h]
      rfl
    | cons i inner ih =>
      rw [List.cons_append, assemble_inner (.inl (by simp)), ih]
      rfl
  cases stack with
  | nil => simp [take, give, assemble_close h]
  | cons g inner =>
    rw [take, give, hassemble]
    simp

/-- A push that selects a slot of the innermost container. -/
theorem take_select {p : Push} (h : p.selects?.isSome = true) (done : List Value)
    (stack : List Unfinished) (f : Unfinished) :
    take ⟨done, stack ++ [f]⟩ p = ⟨done, stack ++ [f.select p]⟩ := by
  have hassemble : assemble (stack ++ [f]) p = (none, stack ++ [f.select p]) := by
    induction stack with
    | nil => exact assemble_select h
    | cons g inner ih =>
      rw [List.cons_append, assemble_inner (.inl (by simp)), ih]
      rfl
  rw [take, hassemble]
  simp

end Assembly

/-! ### The pushes of values -/

namespace Unfinished

/-- Fields that all have a value. -/
def filled (fields : List (String × Value)) : List (String × Option Value) :=
  fields.map fun e => (e.1, some e.2)

theorem keys_filled (fields : List (String × Value)) :
    (filled fields).map Prod.fst = fields.map Prod.fst := by
  simp [filled, Function.comp_def]

theorem addEntry_filled (fields : List (String × Value)) (key : String) :
    addEntry (filled fields) key = filled fields ++ [(key, none)] := by
  have hlookup : lookup (filled fields) key ≠ some none := by
    induction fields with
    | nil => simp [filled]
    | cons e rest ih =>
      simp only [filled, List.map_cons, lookup]
      split
      · simp
      · exact ih
  unfold addEntry
  split
  · next h => exact absurd h hlookup
  · rfl

theorem fillEntry_filled (fields : List (String × Value)) (key : String) (v : Value) :
    fillEntry (filled fields ++ [(key, none)]) key v = filled (fields ++ [(key, v)]) := by
  induction fields with
  | nil => simp [filled, fillEntry]
  | cons e rest ih =>
    simp only [filled, List.map_cons, List.cons_append, fillEntry] at ih ⊢
    rw [ih]

/-- The first slot without a value is filled. -/
theorem set_slot (before : List Value) (v : Value) (n : Nat) :
    (before.map some ++ List.replicate (n + 1) none).set before.length (some v)
      = (before ++ [v]).map some ++ List.replicate n none := by
  rw [List.set_append_right _ _ (by simp), List.length_map, Nat.sub_self, List.replicate_succ,
    List.set_cons_zero]
  simp

theorem value_some (items : List Value) (slot : Option Nat) :
    (tuple (items.map some) slot).value = .tuple items := by
  simp [value, Function.comp_def]

theorem value_filled (name : Option String) (fields : List (String × Value))
    (key : Option String) : (record name (filled fields) key).value = .record name fields := by
  simp [value, filled, Function.comp_def]

end Unfinished

namespace Assembly

open Unfinished

mutual

/-- The pushes of a value give the value. -/
theorem takeAll_pushes (s : Assembly) : ∀ v : Value, s.takeAll v.pushes = s.give v
  | .null | .bool _ | .int _ | .real _ | .complex _ | .datetime _ _ | .timedelta _ _ | .bytes _ =>
    take_value rfl s
  | .string t => by
    rw [Value.pushes, takeAll_cons, takeAll_nil]
    exact take_value (by rw [Push.text, Push.value?, Utf8.lossy_encodeString]) s
  | .list items => by
    rw [Value.pushes, List.cons_append, takeAll_cons, take_open rfl, takeAll_append,
      takeAll_items s.done s.stack items [], List.nil_append, takeAll_cons, take_close rfl]
    rfl
  | .tuple items => by
    obtain ⟨slot, h⟩ := takeAll_slots s.done s.stack items [] none
    rw [List.map_nil, List.nil_append, List.length_nil] at h
    rw [Value.pushes, List.cons_append, takeAll_cons, take_open rfl, takeAll_append, h,
      List.nil_append, takeAll_cons, take_close rfl, value_some]
    rfl
  | .record name fields => by
    rw [Value.pushes, List.cons_append, takeAll_cons, take_open rfl, takeAll_append]
    obtain ⟨key, h⟩ := takeAll_fields s.done s.stack name fields [] none
    rw [show filled [] = [] from rfl] at h
    rw [h, List.nil_append, takeAll_cons, take_close rfl, value_filled]
    rfl
termination_by structural v => v

/-- The pushes of values give the items of an open list. -/
theorem takeAll_items (done : List Value) (stack : List Unfinished) :
    ∀ (items before : List Value),
      takeAll ⟨done, stack ++ [.list before]⟩ (Value.itemPushes items)
        = ⟨done, stack ++ [.list (before ++ items)]⟩
  | [], before => by simp [Value.itemPushes]
  | v :: items, before => by
    rw [Value.itemPushes, takeAll_append, takeAll_pushes _ v, give_concat, Unfinished.take,
      takeAll_items done stack items]
    simp
termination_by structural items => items

theorem takeAll_slots (done : List Value) (stack : List Unfinished) :
    ∀ (items before : List Value) (slot : Option Nat), ∃ slot',
      takeAll ⟨done, stack ++ [.tuple (before.map some ++ List.replicate items.length none) slot]⟩
          (Value.slotPushes before.length items)
        = ⟨done, stack ++ [.tuple ((before ++ items).map some) slot']⟩
  | [], before, slot => ⟨slot, by simp [Value.slotPushes]⟩
  | v :: items, before, slot => by
    obtain ⟨slot', h⟩ := takeAll_slots done stack items (before ++ [v]) (some before.length)
    refine ⟨slot', ?_⟩
    rw [Value.slotPushes, List.cons_append, takeAll_cons, take_select rfl, takeAll_append,
      takeAll_pushes _ v, give_concat]
    rw [List.length_append, List.length_singleton] at h
    rw [List.length_cons, select, Unfinished.take, set_slot, h, List.append_assoc,
      List.singleton_append]
termination_by structural items => items

theorem takeAll_fields (done : List Value) (stack : List Unfinished) (name : Option String) :
    ∀ (fields before : List (String × Value)) (key : Option String), ∃ key',
      takeAll ⟨done, stack ++ [.record name (filled before) key]⟩ (Value.fieldPushes fields)
        = ⟨done, stack ++ [.record name (filled (before ++ fields)) key']⟩
  | [], before, key => ⟨key, by simp [Value.fieldPushes]⟩
  | (k, v) :: fields, before, key => by
    obtain ⟨key', h⟩ := takeAll_fields done stack name fields (before ++ [(k, v)]) (some k)
    refine ⟨key', ?_⟩
    rw [Value.fieldPushes, List.cons_append, takeAll_cons, take_select rfl, takeAll_append,
      takeAll_pushes _ v, give_concat, select, addEntry_filled, Unfinished.take, fillEntry_filled,
      h, List.append_assoc, List.singleton_append]
termination_by structural fields => fields

end

/-- Values that are pushed when nothing is under way are complete. -/
theorem takeAll_itemPushes (done : List Value) :
    ∀ vs : List Value, takeAll ⟨done, []⟩ (Value.itemPushes vs) = ⟨done ++ vs, []⟩ := by
  intro vs
  induction vs generalizing done with
  | nil => simp [Value.itemPushes]
  | cons v vs ih =>
    rw [Value.itemPushes, takeAll_append, takeAll_pushes, give]
    simp only
    rw [ih, List.append_assoc, List.singleton_append]

end Assembly

end Columnar
