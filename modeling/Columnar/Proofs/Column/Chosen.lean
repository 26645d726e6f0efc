import Columnar.Proofs.Assembly
import Columnar.Proofs.Column.Fill
import Columnar.Proofs.Column.Rows

/-!
# What rows mean

An open row stands for a tuple or a record that is under way: some of its slots were chosen,
and some of these have a value.  All slots of a tuple are chosen from the start, and the fields
of a record are chosen in the order in which they are selected.  The pushes of the value that
it becomes fill the chosen slots one after another, with missing elements where a value is
lacking.

## Main definitions

* `RowMeaning` — the container under way for which a row stands, with `tupleMeaning` and
  `recordMeaning`.
* `RowShape.Means` — the container follows the row.

## Main results

* `means_tupleShape`, `means_recordShape` — tuples and records mean what they hold.
-/

namespace Columnar

open Column

variable {κ : Type}

/-- What a row stands for. -/
structure RowMeaning (κ : Type) where
  /-- The push that opens a row. -/
  opener : Push
  /-- The push that selects a slot. -/
  selector : κ → Push
  /-- The slots that are chosen from the start. -/
  start : List κ
  /-- The container under way, given the chosen slots, the values that they have, and the
  selected slot. -/
  unfinished : List κ → (κ → Option Value) → Option κ → Unfinished
  /-- Which slots can be chosen of those that the row has. -/
  Apt : List κ → List κ → Prop

/-- The fill of a slot by a value, or by a missing one. -/
def RowMeaning.fill (M : RowMeaning κ) (val : κ → Option Value) (k : κ) : Fill :=
  ⟨M.selector k, ((val k).getD .null).pushes⟩

namespace RowShape

variable [DecidableEq κ]

theorem mem_withKey {keys : List κ} {k k' : κ} : k' ∈ withKey keys k ↔ k' ∈ keys ∨ k' = k := by
  unfold withKey
  split
  · next hk =>
    refine ⟨.inl, ?_⟩
    rintro (hk' | rfl)
    · exact hk'
    · exact hk
  · simp

theorem nodup_withKey {keys : List κ} (h : keys.Nodup) (k : κ) : (withKey keys k).Nodup := by
  unfold withKey
  split
  · exact h
  · next hk => simpa only [List.concat_eq_append] using List.Nodup.concat hk h

theorem mem_foldl_withKey {keys new : List κ} {k : κ} :
    k ∈ new.foldl withKey keys ↔ k ∈ keys ∨ k ∈ new := by
  induction new generalizing keys with
  | nil => simp
  | cons k' new ih => simp [ih, mem_withKey, or_assoc]

/-- Choosing one slot more. -/
theorem withKey_foldl (keys chosen : List κ) (k : κ) :
    withKey (chosen.foldl withKey keys) k = (withKey chosen k).foldl withKey keys := by
  by_cases hk : k ∈ chosen
  · rw [withKey, if_pos (mem_foldl_withKey.mpr (.inr hk)), withKey, if_pos hk]
  · rw [withKey.eq_def chosen, if_neg hk, List.foldl_append]
    rfl

/-- The container under way follows the row. -/
structure Means (K : RowShape κ) (M : RowMeaning κ) : Prop where
  /-- What the opening push begins. -/
  opens : M.opener.unfinished? = some (M.unfinished M.start (fun _ => none) none)
  /-- A slot that has no value is selected. -/
  select : ∀ {keys chosen : List κ} {p : Push} {k : κ} {val : κ → Option Value}
    (slot : Option κ), M.Apt keys chosen → K.key? keys p = some k →
      (k ∈ keys ∨ K.mayAdd p = true) → val k = none →
        (M.unfinished chosen val slot).select p = M.unfinished (withKey chosen k) val (some k) ∧
          M.Apt (withKey keys k) (withKey chosen k)
  /-- The selected slot takes its value. -/
  take : ∀ {keys chosen : List κ} {k : κ} {val : κ → Option Value} (v : Value),
    M.Apt keys chosen → chosen.Nodup → k ∈ chosen → val k = none →
      (M.unfinished chosen val (some k)).take v
        = M.unfinished chosen (Function.update val k (some v)) (some k)
  /-- The pushes of the value that the row becomes. -/
  pushes : ∀ {keys chosen : List κ} (val : κ → Option Value) (slot : Option κ),
    M.Apt keys chosen → (M.unfinished chosen val slot).value.pushes
      = M.opener :: (chosen.map (M.fill val)).flatMap Fill.run ++ [K.closer]
  /-- The chosen slots can be selected when the row is opened. -/
  key? : ∀ {keys keys' chosen : List κ} {k : κ}, M.Apt keys M.start → M.Apt keys' chosen →
    k ∈ chosen → K.key? keys (M.selector k) = some k ∧
      (k ∈ keys ∨ K.mayAdd (M.selector k) = true)

/-- What is made inside goes to the selected slot. -/
theorem Means.deliver {K : RowShape κ} {M : RowMeaning κ} (hM : K.Means M)
    {keys chosen : List κ} {k : κ} {val : κ → Option Value} (hapt : M.Apt keys chosen)
    (hnd : chosen.Nodup) (hk : k ∈ chosen) (hnone : val k = none) (v? : Option Value) :
    (M.unfinished chosen val (some k)).deliver v?
      = M.unfinished chosen (Function.update val k v?) (some k) := by
  cases v? with
  | none => rw [Unfinished.deliver_none, ← hnone, Function.update_eq_self]
  | some v => exact hM.take v hapt hnd hk hnone

end RowShape

/-! ### Tuples -/

/-- Tuples of `m` slots. -/
def tupleMeaning (m : Nat) : RowMeaning Nat where
  opener := .beginTuple m
  selector := .index
  start := List.range m
  unfinished chosen val slot := .tuple (chosen.map val) slot
  Apt keys chosen := keys = List.range m ∧ chosen = List.range m

theorem slotPushes_eq (f : Nat → Value) (s m : Nat) :
    Value.slotPushes s ((List.range' s m).map f)
      = (List.range' s m).flatMap fun i => .index i :: (f i).pushes := by
  induction m generalizing s with
  | zero => rfl
  | succ m ih => rw [List.range'_succ, List.map_cons, Value.slotPushes, ih, List.flatMap_cons]

theorem means_tupleShape (n m : Nat) : (tupleShape n).Means (tupleMeaning m) where
  opens := by simp [tupleMeaning, Push.unfinished?]
  select := by
    rintro keys chosen p k val slot ⟨rfl, rfl⟩ hkey - -
    cases p with
    | index i =>
      have hi : (List.range m)[i]? = some k := hkey
      obtain ⟨hlt, rfl⟩ := List.getElem?_eq_some_iff.mp hi
      have hmem : i ∈ List.range m := List.mem_range.mpr (by simpa using hlt)
      rw [List.getElem_range, RowShape.withKey, if_pos hmem]
      exact ⟨rfl, rfl, rfl⟩
    | _ => cases hkey
  take := by
    rintro keys chosen k val v ⟨-, rfl⟩ hnd hk -
    change Unfinished.tuple _ _ = Unfinished.tuple _ _
    rw [hnd.map_update, if_pos hk]
    congr 1
    have hlt : k < (List.range m).length := by simpa using hk
    have hidx := hnd.idxOf_getElem k hlt
    rw [List.getElem_range] at hidx
    rw [hidx]
  pushes := by
    rintro keys chosen val slot ⟨-, rfl⟩
    change (Value.tuple (((List.range m).map val).map fun v => v.getD .null)).pushes = _
    rw [List.map_map, Value.pushes, List.range_eq_range', slotPushes_eq, List.flatMap_map]
    simp [tupleMeaning, tupleShape, RowMeaning.fill, Fill.run, Function.comp_def]
  key? := by
    rintro keys keys' chosen k ⟨rfl, -⟩ ⟨-, rfl⟩ hk
    have hlt : k < m := List.mem_range.mp hk
    exact ⟨by simp [tupleShape, tupleMeaning, hlt], .inl hk⟩

/-! ### Records -/

/-- Records of a name. -/
def recordMeaning (name : Option String) : RowMeaning String where
  opener := .beginRecord name
  selector key := .field key false
  start := []
  unfinished chosen val key := .record name (chosen.map fun k => (k, val k)) key
  Apt _ _ := True

theorem lookup_map_key (chosen : List String) (val : String → Option Value) (key : String) :
    lookup (chosen.map fun k => (k, val k)) key
      = if key ∈ chosen then some (val key) else none := by
  induction chosen with
  | nil => rfl
  | cons k chosen ih =>
    rw [List.map_cons, lookup, ih]
    by_cases hk : k = key
    · simp [hk]
    · simp [hk, Ne.symm hk]

/-- A field that has no value is selected. -/
theorem addEntry_map {chosen : List String} {val : String → Option Value} {key : String}
    (h : val key = none) :
    Unfinished.addEntry (chosen.map fun k => (k, val k)) key
      = (RowShape.withKey chosen key).map fun k => (k, val k) := by
  have hlookup := lookup_map_key chosen val key
  rw [h] at hlookup
  unfold Unfinished.addEntry RowShape.withKey
  split
  · next he =>
    rw [he] at hlookup
    split at hlookup
    · next hk => rw [if_pos hk]
    · cases hlookup
  · next he =>
    have hk : key ∉ chosen := fun hk => he (by rw [hlookup, if_pos hk])
    rw [if_neg hk, List.map_append, List.map_singleton, h]

/-- A field that has no value takes one. -/
theorem fillEntry_map {chosen : List String} (hnd : chosen.Nodup) {val : String → Option Value}
    {key : String} (hk : key ∈ chosen) (h : val key = none) (v : Value) :
    Unfinished.fillEntry (chosen.map fun k => (k, val k)) key v
      = chosen.map fun k => (k, Function.update val key (some v) k) := by
  induction chosen with
  | nil => cases hk
  | cons k chosen ih =>
    rw [List.nodup_cons] at hnd
    by_cases hkey : k = key
    · subst hkey
      have hrest : ∀ j ∈ chosen, (j, val j) = (j, Function.update val k (some v) j) := by
        intro j hj
        rw [Function.update_of_ne]
        rintro rfl
        exact hnd.1 hj
      rw [List.map_cons, List.map_cons, h, Unfinished.fillEntry, if_pos rfl,
        Function.update_self, List.map_congr_left hrest]
    · have hmem := (List.mem_cons.mp hk).resolve_left (Ne.symm hkey)
      have hself : Function.update val key (some v) k = val k := Function.update_of_ne hkey _ _
      rw [List.map_cons, List.map_cons, hself, ← ih hnd.2 hmem]
      cases val k with
      | none => rw [Unfinished.fillEntry, if_neg hkey]
      | some w => rw [Unfinished.fillEntry]

theorem fieldPushes_eq (chosen : List String) (f : String → Value) :
    Value.fieldPushes (chosen.map fun k => (k, f k))
      = chosen.flatMap fun k => .field k false :: (f k).pushes := by
  induction chosen with
  | nil => rfl
  | cons k chosen ih => rw [List.map_cons, Value.fieldPushes, ih, List.flatMap_cons]

theorem means_recordShape (name name' : Option String) (n : Nat) (settled declared : Bool) :
    (recordShape name n settled declared).Means (recordMeaning name') where
  opens := rfl
  select := by
    intro keys chosen p k val slot _ hkey _ hnone
    cases p with
    | field key check =>
      obtain rfl : key = k := Option.some.inj hkey
      refine ⟨?_, trivial⟩
      change Unfinished.record _ _ _ = Unfinished.record _ _ _
      rw [addEntry_map hnone]
    | _ => cases hkey
  take := by
    intro keys chosen k val v _ hnd hk hnone
    change Unfinished.record _ _ _ = Unfinished.record _ _ _
    rw [fillEntry_map hnd hk hnone]
  pushes := by
    intro keys chosen val slot _
    change (Value.record name' ((chosen.map fun k => (k, val k)).map
      fun e => (e.1, e.2.getD .null))).pushes = _
    rw [List.map_map, Value.pushes]
    change _ :: Value.fieldPushes (chosen.map fun k => (k, (val k).getD .null)) ++ _ = _
    rw [fieldPushes_eq, List.flatMap_map]
    rfl
  key? := by
    intro keys keys' chosen k _ _ _
    exact ⟨rfl, .inr rfl⟩

end Columnar
