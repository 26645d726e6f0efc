import Mathlib.Algebra.GroupWithZero.Nat
import Columnar.Proofs.Assembly
import Columnar.Proofs.Column.Preservation

/-!
# What a column holds

A column holds the values that are complete at its place and the container that is under
way there.  Each kind of column holds them in its own way, and hands to the columns below it
the parts they hold: the items of lists, the slots of tuples, the fields of records, the
values that are not missing, the values of one class.

A column that was never cleared is moreover no wider than its elements ask for: it is optional
only if an element is missing, it is a union of the classes that its elements have, in the
order of their first appearance, and so on.

## Main definitions

* `seen` — the classes of the values, with that of the container under way.
* `placesFrom`, `ranks`, `offsetsFrom` — the index of an optional column, that of a union,
  and the offsets of lists.
* `Column.Fits` — a column holds values and containers under way.

## Main results

* `Column.Fits.isActive`, `Column.Fits.length` — what is open, and how much is complete.
* `Column.fits_clear` — a cleared column holds nothing.
-/

namespace Columnar

/-! ### Sequences of classes -/

/-- The classes of values, and then that of the container under way after them. -/
def seen (vs : List Value) : List Unfinished → List (Option ElementClass)
  | [] => vs.map Value.class?
  | f :: _ => vs.map Value.class? ++ [some f.elementClass]

/-- The places of present elements among missing ones, the first of them `n`. -/
def placesFrom {α : Type} (n : Nat) : List (Option α) → List (Option Nat)
  | [] => []
  | none :: rest => none :: placesFrom n rest
  | some _ :: rest => some n :: placesFrom (n + 1) rest

/-- How often each member of a list stands in `before` and before it. -/
def ranksAfter {α : Type} [BEq α] (before : List α) : List α → List Nat
  | [] => []
  | a :: rest => before.count a :: ranksAfter (before ++ [a]) rest

/-- How often each member of a list stands before it. -/
def ranks {α : Type} [BEq α] (l : List α) : List Nat := ranksAfter [] l

/-- The offsets of runs of some lengths, the first one beginning at `n`. -/
def offsetsFrom (n : Nat) : List Nat → List Nat
  | [] => [n]
  | len :: rest => n :: offsetsFrom (n + len) rest

theorem seen_append (vs ws : List Value) (stack : List Unfinished) :
    seen (vs ++ ws) stack = vs.map Value.class? ++ seen ws stack := by
  cases stack <;> simp [seen]

@[simp] theorem length_seen_nil (vs : List Value) : (seen vs []).length = vs.length := by
  simp [seen]

@[simp] theorem length_seen_cons (vs : List Value) (f : Unfinished) (inner : List Unfinished) :
    (seen vs (f :: inner)).length = vs.length + 1 := by
  simp [seen]

@[simp] theorem length_placesFrom {α : Type} (l : List (Option α)) (n : Nat) :
    (placesFrom n l).length = l.length := by
  induction l generalizing n with
  | nil => rfl
  | cons m rest ih => cases m <;> simp [placesFrom, ih]

theorem placesFrom_append {α : Type} (l m : List (Option α)) (n : Nat) :
    placesFrom n (l ++ m) = placesFrom n l ++ placesFrom (n + l.reduceOption.length) m := by
  induction l generalizing n with
  | nil => rfl
  | cons a rest ih =>
    cases a with
    | none => simp [placesFrom, ih]
    | some a =>
      rw [List.cons_append, placesFrom, placesFrom, ih, List.cons_append,
        List.reduceOption_cons_of_some, List.length_cons, Nat.add_assoc, Nat.add_comm 1]

theorem placesFrom_replicate_none {α : Type} (n m : Nat) :
    placesFrom n (List.replicate m (none : Option α)) = List.replicate m none := by
  induction m with
  | zero => rfl
  | succ m ih => rw [List.replicate_succ, placesFrom, ih, ← List.replicate_succ]

theorem ranksAfter_append {α : Type} [BEq α] (before l m : List α) :
    ranksAfter before (l ++ m) = ranksAfter before l ++ ranksAfter (before ++ l) m := by
  induction l generalizing before with
  | nil => simp [ranksAfter]
  | cons a rest ih => simp [ranksAfter, ih]

theorem ranks_concat {α : Type} [BEq α] (l : List α) (a : α) :
    ranks (l ++ [a]) = ranks l ++ [l.count a] := by
  rw [ranks, ranksAfter_append]
  rfl

theorem ranks_replicate {α : Type} [BEq α] [LawfulBEq α] (a : α) (n : Nat) :
    ranks (List.replicate n a) = List.range n := by
  induction n with
  | zero => rfl
  | succ n ih =>
    rw [List.replicate_succ', ranks_concat, ih, List.count_replicate_self, List.range_succ]

@[simp] theorem length_ranksAfter {α : Type} [BEq α] (before l : List α) :
    (ranksAfter before l).length = l.length := by
  induction l generalizing before with
  | nil => rfl
  | cons a rest ih => simp [ranksAfter, ih]

@[simp] theorem length_offsetsFrom (ls : List Nat) (n : Nat) :
    (offsetsFrom n ls).length = ls.length + 1 := by
  induction ls generalizing n with
  | nil => rfl
  | cons len rest ih => simp [offsetsFrom, ih]

theorem offsetsFrom_concat (ls : List Nat) (n len : Nat) :
    offsetsFrom n (ls ++ [len]) = offsetsFrom n ls ++ [n + ls.sum + len] := by
  induction ls generalizing n with
  | nil => simp [offsetsFrom]
  | cons l rest ih => simp [offsetsFrom, ih, Nat.add_assoc]

/-! ### Parts of what a column holds -/

namespace Value

/-- The values that are not missing. -/
def present (vs : List Value) : List Value := vs.filter fun v => v.class?.isSome

/-- The values of a class. -/
def ofClass (k : Option ElementClass) (vs : List Value) : List Value :=
  vs.filter fun v => v.class? == k

/-- An integer or a real as a real. -/
def toReal? : Value → Option Binary64
  | .int n => some (Column.realOfInt n)
  | .real x => some x
  | _ => none

/-- A number as a complex number. -/
def toComplex? : Value → Option Complex
  | .int n => some (Column.complexOfInt n)
  | .real x => some (.ofReal x)
  | .complex z => some z
  | _ => none

/-- The bytes of a string. -/
def data : Value → List UInt8
  | .string s => Utf8.encodeString s
  | .bytes data => data
  | _ => []

/-- If a part is there of all values, it is there of each of them. -/
theorem exists_of_map_eq_map_some {α : Type} {part : Value → Option α} {vs : List Value}
    {parts : List α} (h : vs.map part = parts.map some) {v : Value} (hv : v ∈ vs) :
    ∃ x, part v = some x := by
  have hmem : part v ∈ vs.map part := List.mem_map_of_mem hv
  rw [h] at hmem
  obtain ⟨x, -, hx⟩ := List.mem_map.mp hmem
  exact ⟨x, hx.symm⟩

/-- What is a real is a complex number without imaginary part. -/
theorem toComplex?_of_toReal? {v : Value} {x : Binary64} (h : v.toReal? = some x) :
    v.toComplex? = some (.ofReal x) := by
  cases v with
  | int n | real y =>
    cases h
    rfl
  | _ => cases h

theorem map_toComplex?_of_reals {vs : List Value} {reals : List Binary64}
    (h : vs.map toReal? = reals.map some) :
    vs.map toComplex? = reals.map fun x => some (.ofReal x) :=
  calc vs.map toComplex?
      = vs.map fun v => v.toReal?.map Complex.ofReal := by
        apply List.map_congr_left
        intro v hv
        obtain ⟨x, hx⟩ := exists_of_map_eq_map_some h hv
        rw [toComplex?_of_toReal? hx, hx, Option.map_some]
    _ = (vs.map toReal?).map (Option.map Complex.ofReal) := by rw [List.map_map]; rfl
    _ = reals.map fun x => some (.ofReal x) := by rw [h, List.map_map]; rfl

end Value

/-- The containers under way, if the outermost one is of a class. -/
def stackOf (k : Option ElementClass) : List Unfinished → List Unfinished
  | [] => []
  | f :: inner => if some f.elementClass = k then f :: inner else []

namespace Column

/-- What is there is of one class; if `fresh`, something is there. -/
structure OfClass (fresh : Prop) (k : ElementClass) (vs : List Value)
    (stack : List Unfinished) : Prop where
  /-- Every class is `k`. -/
  all : ∀ m ∈ seen vs stack, m = some k
  /-- There is an element. -/
  ne_nil : fresh → seen vs stack ≠ []

/-- The fields of records are those with a key that was seen; if `fresh`, they are the
declared ones and then those that were seen, in the order of their first appearance. -/
structure KeysFit (o : Options) (fresh : Prop) (name : Option String)
    (keys seenKeys : List String) : Prop where
  /-- Every key has a field. -/
  mem : ∀ key ∈ seenKeys, key ∈ keys
  /-- Nothing else has one. -/
  eq : fresh → keys = ((o.declaredFields? name).getD [] ++ seenKeys).eraseDups

/-- A column holds complete values, and containers that are under way after them, the
outermost first.  If `fresh`, it is no wider than these ask for. -/
inductive Fits (o : Options) (fresh : Prop) : Column → List Value → List Unfinished → Prop
  /-- Missing values alone. -/
  | unknown (n : Nat) : Fits o fresh (.unknown n) (List.replicate n .null) []
  /-- Values of which some may be missing. -/
  | option {index : Array (Option Nat)} {content : Column} {vs : List Value}
      {stack : List Unfinished} (hindex : index.toList = placesFrom 0 (seen vs stack))
      (hnull : fresh → Value.null ∈ vs) (hc : Fits o fresh content (Value.present vs) stack) :
      Fits o fresh (.option index content) vs stack
  /-- Truth values. -/
  | bool {values : Array Bool} {vs : List Value} (hvs : vs = values.toList.map .bool)
      (hne : fresh → vs ≠ []) : Fits o fresh (.bool values) vs []
  /-- Integers. -/
  | int64 {values : Array Int64} {vs : List Value} (hvs : vs = values.toList.map .int)
      (hne : fresh → vs ≠ []) : Fits o fresh (.int64 values) vs []
  /-- Integers and reals, held as reals. -/
  | float64 {values : Array Binary64} {vs : List Value}
      (hvs : vs.map Value.toReal? = values.toList.map some)
      (hne : fresh → ∃ x, Value.real x ∈ vs) : Fits o fresh (.float64 values) vs []
  /-- Numbers, held as complex ones. -/
  | complex128 {values : Array Complex} {vs : List Value}
      (hvs : vs.map Value.toComplex? = values.toList.map some)
      (hne : fresh → ∃ z, Value.complex z ∈ vs) : Fits o fresh (.complex128 values) vs []
  /-- Times of one kind and unit. -/
  | time {kind : TimeKind} {unit : TimeUnit} {counts : Array Int64} {vs : List Value}
      (hvs : vs = counts.toList.map (Value.time kind · unit)) (hne : fresh → vs ≠ []) :
      Fits o fresh (.time kind unit counts) vs []
  /-- Strings of one encoding. -/
  | string {encoding : Encoding} {offsets : Array Nat} {data : Array UInt8} {vs : List Value}
      (hk : OfClass fresh (.string encoding) vs [])
      (hoffsets : offsets.toList = offsetsFrom 0 (vs.map fun v => v.data.length))
      (hdata : data.toList = vs.flatMap Value.data) :
      Fits o fresh (.string encoding offsets data) vs []
  /-- Lists, none of them open. -/
  | list {offsets : Array Nat} {content : Column} {vs : List Value}
      (hk : OfClass fresh .list vs [])
      (hoffsets : offsets.toList = offsetsFrom 0 (vs.map fun v => v.items.length))
      (hc : Fits o fresh content (vs.flatMap Value.items) []) :
      Fits o fresh (.list offsets content false) vs []
  /-- Lists, the last of them open. -/
  | list_open {offsets : Array Nat} {content : Column} {vs items : List Value}
      {inner : List Unfinished} (hk : OfClass fresh .list vs (.list items :: inner))
      (hoffsets : offsets.toList = offsetsFrom 0 (vs.map fun v => v.items.length))
      (hc : Fits o fresh content (vs.flatMap Value.items ++ items) inner) :
      Fits o fresh (.list offsets content true) vs (.list items :: inner)
  /-- Tuples, none of them open. -/
  | tuple {slots : List Column} {n : Nat} {vs : List Value}
      (hk : OfClass fresh (.tuple slots.length) vs []) (hn : n = vs.length)
      (hc : ∀ i c, slots[i]? = some c → Fits o fresh c (vs.filterMap (Value.slot? i)) []) :
      Fits o fresh (.tuple slots n .closed) vs []
  /-- Tuples, the last of them open. -/
  | tuple_open {slots : List Column} {n : Nat} {vs : List Value} {filled : List (Option Value)}
      {slot : Option Nat} {inner : List Unfinished}
      (hk : OfClass fresh (.tuple slots.length) vs (.tuple filled slot :: inner))
      (hn : n = vs.length) (hslot : slot = none → inner = [])
      (hc : ∀ i c, slots[i]? = some c →
        Fits o fresh c (vs.filterMap (Value.slot? i) ++ (filled[i]?).join.toList)
          (if slot = some i then inner else [])) :
      Fits o fresh (.tuple slots n (.filling slot)) vs (.tuple filled slot :: inner)
  /-- Records, none of them open. -/
  | record {name : Option String} {fields : List (String × Column)} {n : Nat}
      {settled declared : Bool} {vs : List Value} (hk : OfClass fresh (.record name) vs [])
      (hn : n = vs.length)
      (hkeys : KeysFit o fresh name (fields.map Prod.fst) (vs.flatMap Value.keys))
      (hdistinct : ∀ v ∈ vs, v.keys.Nodup)
      (hc : ∀ key c, (key, c) ∈ fields → Fits o fresh c (vs.filterMap (Value.field? key)) []) :
      Fits o fresh (.record name fields n .closed settled declared) vs []
  /-- Records, the last of them open. -/
  | record_open {name : Option String} {fields : List (String × Column)} {n : Nat}
      {slot : Option Nat} {settled declared : Bool} {vs : List Value}
      {entries : List (String × Option Value)} {key : Option String} {inner : List Unfinished}
      (hk : OfClass fresh (.record name) vs (.record name entries key :: inner))
      (hn : n = vs.length)
      (hkeys : KeysFit o fresh name (fields.map Prod.fst)
        (vs.flatMap Value.keys ++ entries.map Prod.fst))
      (hdistinct : ∀ v ∈ vs, v.keys.Nodup) (hentries : (entries.map Prod.fst).Nodup)
      (hslot : key = slot.bind fun i => (fields.map Prod.fst)[i]?)
      (hkey : key = none → inner = [])
      (hentry : ∀ k, key = some k → k ∈ entries.map Prod.fst)
      (hc : ∀ k c, (k, c) ∈ fields →
        Fits o fresh c (vs.filterMap (Value.field? k) ++ (lookup entries k).join.toList)
          (if key = some k then inner else [])) :
      Fits o fresh (.record name fields n (.filling slot) settled declared) vs
        (.record name entries key :: inner)
  /-- Values of several classes. -/
  | union {tags index : Array Nat} {children : List Column} {current : Option Nat}
      {vs : List Value} {stack : List Unfinished}
      (htags : tags.toList = (seen vs stack).map (children.map class?).idxOf)
      (hindex : index.toList = ranks (seen vs stack))
      (hmem : ∀ k ∈ seen vs stack, k ∈ children.map class?)
      (hcurrent : current.isSome = !stack.isEmpty)
      (hclasses : fresh → children.map class? = (seen vs stack).eraseDups)
      (hc : ∀ c ∈ children,
        Fits o fresh c (Value.ofClass c.class? vs) (stackOf c.class? stack)) :
      Fits o fresh (.union tags index children current) vs stack

variable {o : Options} {fresh : Prop} {c : Column} {vs : List Value} {stack : List Unfinished}

/-- A container is under way if and only if the column is open. -/
theorem Fits.isActive (h : Fits o fresh c vs stack) : c.isActive = !stack.isEmpty := by
  induction h with
  | option _ _ _ ih => exact ih
  | union _ _ _ hcurrent => exact hcurrent
  | _ => rfl

theorem Fits.stack_eq_nil (h : Fits o fresh c vs stack) (hc : c.isActive = false) :
    stack = [] := by
  rw [h.isActive] at hc
  simpa using hc

/-- The values that a column holds are its complete elements. -/
theorem Fits.length (h : Fits o fresh c vs stack) : c.length = vs.length := by
  have hseen : ∀ (vs : List Value) (stack : List Unfinished),
      (seen vs stack).length - (!stack.isEmpty).toNat = vs.length := by
    intro vs stack
    cases stack <;> simp
  induction h with
  | unknown n => simp [Column.length]
  | option hindex _ hc _ =>
    rw [Column.length, hc.isActive, ← Array.length_toList, hindex, length_placesFrom, hseen]
  | bool hvs | int64 hvs | time hvs => simp [Column.length, hvs]
  | float64 hvs | complex128 hvs =>
    have hlen := congrArg List.length hvs
    simpa [Column.length] using hlen.symm
  | string _ hoffsets | list _ hoffsets | list_open _ hoffsets =>
    rw [Column.length, ← Array.length_toList, hoffsets]
    simp
  | tuple _ hn | tuple_open _ hn | record _ hn | record_open _ hn => exact hn
  | union htags _ _ hcurrent =>
    rw [Column.length, hcurrent, ← Array.length_toList, htags, List.length_map, hseen]

/-- A cleared column holds nothing. -/
theorem fits_clear (o : Options) (c : Column) : Fits o False c.clear [] [] := by
  induction c using Column.induct with
  | node c ih =>
    cases c with
    | unknown n => exact .unknown 0
    | option index content => exact .option rfl nofun (ih content (List.mem_singleton_self _))
    | bool values => exact .bool rfl nofun
    | int64 values => exact .int64 rfl nofun
    | float64 values => exact .float64 rfl nofun
    | complex128 values => exact .complex128 rfl nofun
    | time kind unit counts => exact .time rfl nofun
    | string encoding offsets data => exact .string ⟨nofun, nofun⟩ rfl rfl
    | list offsets content isOpen =>
      exact .list ⟨nofun, nofun⟩ rfl (ih content (List.mem_singleton_self _))
    | tuple slots n filling =>
      refine .tuple ⟨nofun, nofun⟩ rfl ?_
      intro i c hi
      rw [clearAll_eq, List.getElem?_map, Option.map_eq_some_iff] at hi
      obtain ⟨d, hd, rfl⟩ := hi
      exact ih d (List.mem_of_getElem? hd)
    | record name fields n filling settled declared =>
      refine .record ⟨nofun, nofun⟩ rfl ⟨nofun, nofun⟩ nofun ?_
      intro key c hmem
      rw [clearFields_eq] at hmem
      obtain ⟨f, hf, heq⟩ := List.mem_map.mp hmem
      cases heq
      exact ih f.2 (List.mem_map_of_mem hf)
    | union tags index children current =>
      refine .union rfl rfl nofun rfl nofun ?_
      intro c hmem
      rw [clearAll_eq] at hmem
      obtain ⟨d, hd, rfl⟩ := List.mem_map.mp hmem
      exact ih d hd

end Column

end Columnar
