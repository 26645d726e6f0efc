import Mathlib.Data.List.Forall2
import Columnar.Form.Values
import Columnar.Proofs.Column.Taken

/-!
# How values are read back

A value is read back as it is, except that a number may be wider, and that a record may have its
fields in another order and further ones, which are missing.  Which fields those are, and in which
order, is up to the form that is read; `Form.Restores` says it.

Reading takes apart what columns put together: offsets cut the items of lists, places pick
the present elements, and tags pick the elements of a class.

## Main definitions

* `Reads` — a value is read back as another one.

## Main results

* `Form.map_slice_spans` — offsets cut a run into the runs that were joined.
* `Form.reads_itemAt` — places pick the present values.
* `Form.reads_taggedItem` — tags and places pick the values of every class.
-/

namespace Columnar

/-- A value is read back as another one, by some form: numbers may be wider, and records may have
their fields in another order, and further ones that are missing. -/
inductive Reads : Value → Value → Prop
  /-- The value itself. -/
  | same (v : Value) : Reads v v
  /-- An integer as the nearest real. -/
  | int_real (n : Int64) : Reads (.int n) (.real (.ofInt n.toInt))
  /-- An integer as the nearest real, without an imaginary part. -/
  | int_complex (n : Int64) : Reads (.int n) (.complex (.ofReal (.ofInt n.toInt)))
  /-- A real without an imaginary part. -/
  | real_complex (x : Binary64) : Reads (.real x) (.complex (.ofReal x))
  /-- Lists, item by item. -/
  | list {items out : List Value} (h : List.Forall₂ Reads items out) :
      Reads (.list items) (.list out)
  /-- Tuples, slot by slot. -/
  | tuple {items out : List Value} (h : List.Forall₂ Reads items out) :
      Reads (.tuple items) (.tuple out)
  /-- Records, field by field; no key stands twice, no field is lost, and every field that
  the record has not is missing. -/
  | record {name : Option String} {fields out : List (String × Value)}
      (hfields : (fields.map Prod.fst).Nodup) (hout : (out.map Prod.fst).Nodup)
      (hkeys : ∀ key ∈ fields.map Prod.fst, key ∈ out.map Prod.fst)
      (hread : ∀ key v w, (key, v) ∈ fields → (key, w) ∈ out → Reads v w)
      (hextra : ∀ key w, (key, w) ∈ out → key ∉ fields.map Prod.fst → w = .null) :
      Reads (.record name fields) (.record name out)

/-- Values are read back as they are. -/
theorem reads_self (vs : List Value) : List.Forall₂ Reads vs vs :=
  List.forall₂_same.mpr fun v _ => .same v

/-- Values are read back as what they are kept as. -/
theorem reads_map {α : Type} {f : Value → Option α} {g : α → Value}
    (hfg : ∀ v x, f v = some x → Reads v (g x)) {vs : List Value} {xs : List α}
    (h : vs.map f = xs.map some) : List.Forall₂ Reads vs (xs.map g) := by
  induction vs generalizing xs with
  | nil =>
    rw [List.map_nil, eq_comm, List.map_eq_nil_iff] at h
    rw [h]
    exact .nil
  | cons v vs ih =>
    cases xs with
    | nil => cases h
    | cons x xs =>
      obtain ⟨hv, hvs⟩ := List.cons.inj h
      exact .cons (hfg v x hv) (ih hvs)

theorem reads_of_toReal? (v : Value) (x : Binary64) (h : v.toReal? = some x) :
    Reads v (.real x) := by
  cases v with
  | int n =>
    cases h
    exact .int_real n
  | real y =>
    cases h
    exact .same _
  | _ => cases h

theorem reads_of_toComplex? (v : Value) (z : Complex) (h : v.toComplex? = some z) :
    Reads v (.complex z) := by
  cases v with
  | int n =>
    cases h
    exact .int_complex n
  | real x =>
    cases h
    exact .real_complex x
  | complex w =>
    cases h
    exact .same _
  | _ => cases h

theorem reads_null {w : Value} (h : Reads .null w) : w = .null := by
  cases h
  rfl

/-- What is read back of two runs one after the other is two runs. -/
theorem reads_append {α β : Type} {R : α → β → Prop} {xs ys : List α} {out : List β}
    (h : List.Forall₂ R (xs ++ ys) out) :
    ∃ zs ws, out = zs ++ ws ∧ List.Forall₂ R xs zs ∧ List.Forall₂ R ys ws := by
  induction xs generalizing out with
  | nil => exact ⟨[], out, rfl, .nil, h⟩
  | cons x xs ih =>
    cases h with
    | cons hx hrest =>
      obtain ⟨zs, ws, rfl, hzs, hws⟩ := ih hrest
      exact ⟨_ :: zs, ws, rfl, .cons hx hzs, hws⟩

/-- What is read back of joined runs are joined runs. -/
theorem reads_flatMap {α β γ : Type} {R : β → γ → Prop} {f : α → List β} {xs : List α}
    {out : List γ} (h : List.Forall₂ R (xs.flatMap f) out) :
    ∃ outs : List (List γ), out = outs.flatten ∧
      List.Forall₂ (fun x zs => List.Forall₂ R (f x) zs) xs outs := by
  induction xs generalizing out with
  | nil =>
    cases h
    exact ⟨[], rfl, .nil⟩
  | cons x xs ih =>
    obtain ⟨zs, ws, rfl, hzs, hws⟩ := reads_append h
    obtain ⟨outs, rfl, houts⟩ := ih hws
    exact ⟨zs :: outs, rfl, .cons hzs houts⟩

theorem toList_take {α : Type} (xs : Array α) (n : Nat) :
    (xs.take n).toList = xs.toList.take n := by
  simp

namespace Form

/-! ### Buffers -/

@[simp] theorem ok_bind {α β : Type} (a : α) (f : α → Reading β) : (Except.ok a >>= f) = f a := rfl

theorem ensure_bind {α : Type} {p : Prop} [Decidable p] (h : p) (next : Unit → Reading α) :
    (ensure p >>= next) = next () := by
  rw [ensure, if_pos h]
  rfl

theorem ensure_bind_eq_ok {α : Type} {p : Prop} [Decidable p] {next : Unit → Reading α} {a : α} :
    (ensure p >>= next) = .ok a ↔ p ∧ next () = .ok a := by
  by_cases h : p
  · rw [ensure_bind h]
    exact (and_iff_right h).symm
  · rw [ensure, if_neg h]
    exact ⟨nofun, fun hp => absurd hp.1 h⟩

/-- A buffer that is stored and long enough is read. -/
theorem buffer_eq_ok {α : Type} {table : Buffers} {partition : String} {f : Form}
    {key role : String} {elements : Elements α} {b : Buffer} {data : Array α} {needed : Nat}
    (hkey : f.key? = some key) (hb : lookup table (bufferName partition key role) = some b)
    (hdata : elements.ofBuffer? b = some data) (hle : needed ≤ data.size) :
    f.buffer table partition role elements needed = .ok (data.take needed) := by
  simp only [buffer, hkey, hb, hdata, if_pos hle]

/-- A buffer that is read is stored, and it is long enough. -/
theorem exists_of_buffer_eq_ok {α : Type} {table : Buffers} {partition : String} {f : Form}
    {role : String} {elements : Elements α} {needed : Nat} {out : Array α}
    (h : f.buffer table partition role elements needed = .ok out) :
    ∃ key b data, f.key? = some key ∧ lookup table (bufferName partition key role) = some b ∧
      elements.ofBuffer? b = some data ∧ needed ≤ data.size ∧ out = data.take needed := by
  unfold buffer at h
  cases hkey : f.key? with
  | none => rw [hkey] at h; cases h
  | some key =>
    cases hb : lookup table (bufferName partition key role) with
    | none => simp only [hkey, hb] at h; cases h
    | some b =>
      cases hdata : elements.ofBuffer? b with
      | none => simp only [hkey, hb, hdata] at h; cases h
      | some data =>
        simp only [hkey, hb, hdata] at h
        split at h
        · next hle =>
          cases h
          exact ⟨key, b, data, rfl, hb, hdata, hle, rfl⟩
        · cases h

/-! ### Offsets -/

theorem exists_offsetsFrom (n : Nat) (ls : List Nat) : ∃ rest, offsetsFrom n ls = n :: rest := by
  cases ls <;> exact ⟨_, rfl⟩

theorem firstDescent?_offsetsFrom {previous : Int} (ls : List Nat) {n : Nat}
    (h : previous ≤ n) : firstDescent? previous ((offsetsFrom n ls).map Int.ofNat) = none := by
  induction ls generalizing previous n with
  | nil =>
    rw [offsetsFrom, List.map_singleton, firstDescent?, if_neg (by simpa using h)]
    rfl
  | cons len rest ih =>
    rw [offsetsFrom, List.map_cons, firstDescent?, if_neg (by simpa using h)]
    exact ih (Int.ofNat_le.mpr (Nat.le_add_right n len))

theorem getElem?_offsetsFrom (ls : List Nat) (n : Nat) :
    (offsetsFrom n ls)[ls.length]? = some (n + ls.sum) := by
  induction ls generalizing n with
  | nil => rfl
  | cons len rest ih =>
    rw [offsetsFrom, List.length_cons, List.getElem?_cons_succ, ih, List.sum_cons, Nat.add_assoc]

/-- The first offsets are those of the first runs. -/
theorem take_offsetsFrom (ls more : List Nat) (n : Nat) :
    (offsetsFrom n (ls ++ more)).take (ls.length + 1) = offsetsFrom n ls := by
  induction ls generalizing n with
  | nil =>
    obtain ⟨rest, h⟩ := exists_offsetsFrom n more
    rw [List.nil_append, h]
    rfl
  | cons len ls ih =>
    rw [List.cons_append, offsetsFrom, List.length_cons, List.take_succ_cons, ih]
    rfl

/-- Offsets cut a run into the runs that were joined. -/
theorem map_slice_spans {α : Type} {items : Array α} (runs : List (List α)) (before : List α)
    (h : items.toList = before ++ runs.flatten) :
    (spans ((offsetsFrom before.length (runs.map List.length)).map Int.ofNat)).map (slice items)
      = runs := by
  -- `before` are the runs already cut off: offsets count from the beginning of all runs.
  induction runs generalizing before with
  | nil => rfl
  | cons run runs ih =>
    have hlen : before.length + run.length = (before ++ run).length := by simp
    have hnext := ih (before ++ run) (by simpa using h)
    obtain ⟨rest, hrest⟩ :=
      exists_offsetsFrom (before.length + run.length) (runs.map List.length)
    rw [← hlen, hrest] at hnext
    have hslice : slice items (before.length, before.length + run.length) = run := by
      rw [slice, Array.toList_extract, h, List.extract_eq_take_drop, List.drop_left,
        Nat.add_sub_cancel_left, List.flatten_cons, List.take_left]
    rw [List.map_cons, offsetsFrom, hrest, List.map_cons, List.map_cons, spans, List.map_cons]
    exact congrArg₂ List.cons hslice hnext

/-! ### Places -/

/-- The places of present elements need as many elements as are present. -/
theorem sizeOfPlaces_placesFrom {α : Type} (partition : String) (f : Form) (role : String)
    (l : List (Option α)) (n : Nat) (h : (n + l.reduceOption.length : Nat) ≤ maxInt64) :
    sizeOfPlaces partition f role n ((placesFrom n l).map Column.placeInt)
      = .ok (n + l.reduceOption.length) := by
  induction l generalizing n with
  | nil => rfl
  | cons m rest ih =>
    cases m with
    | none =>
      rw [List.reduceOption_cons_of_none] at h ⊢
      rw [placesFrom, List.map_cons, Column.placeInt, sizeOfPlaces, if_neg (by decide),
        show max n ((-1 : Int) + 1).toNat = n by simp]
      exact ih n h
    | some a =>
      rw [List.reduceOption_cons_of_some, List.length_cons] at h ⊢
      rw [placesFrom, List.map_cons, Column.placeInt, sizeOfPlaces, if_neg (by omega),
        show max n ((n : Int) + 1).toNat = n + 1 by omega, ih (n + 1) (by omega)]
      exact congrArg Except.ok (by omega)

/-- Places pick the present values. -/
theorem reads_itemAt {items : Array Value} {vs : List Value} (before : List Value)
    {rest : List Value} (hitems : items.toList = before ++ rest)
    (h : List.Forall₂ Reads (Value.present vs) rest) :
    List.Forall₂ Reads vs
      (((placesFrom before.length (vs.map Value.class?)).map Column.placeInt).map
        (itemAt items)) := by
  induction vs generalizing before rest with
  | nil => exact .nil
  | cons v vs ih =>
    cases hk : v.class? with
    | none =>
      rw [List.map_cons, hk, placesFrom, List.map_cons, List.map_cons, Value.class?_eq_none.mp hk]
      refine .cons (.same _) (ih before hitems ?_)
      simpa [Value.present, hk] using h
    | some k =>
      have hpresent : Value.present (v :: vs) = v :: Value.present vs := by
        simp [Value.present, hk]
      rw [hpresent] at h
      cases h with
      | @cons _ w _ ws hw hws =>
        -- the next place is the number of present values before
        have hget : items[before.length]? = some w := by
          rw [← Array.getElem?_toList, hitems]
          simp
        have hnext := ih (before ++ [w]) (by simpa using hitems) hws
        rw [List.length_append, List.length_singleton] at hnext
        rw [List.map_cons, hk, placesFrom, List.map_cons, List.map_cons]
        refine .cons ?_ hnext
        rw [Column.placeInt, itemAt, if_neg (by omega), Int.toNat_natCast, hget]
        exact hw

/-! ### Tags -/

/-- The tags and places of members of `ks`, after some before. -/
def entriesAfter {α : Type} [BEq α] (ks before l : List α) : List (Int × Int) :=
  (l.map fun a => (ks.idxOf a : Int)).zip ((ranksAfter before l).map Int.ofNat)

/-- The tags and places in a union need as many elements of every class as there are. -/
theorem sizesOfTagged_entriesAfter {α : Type} [BEq α] [LawfulBEq α] (partition : String)
    (f : Form) {ks : List α} (hks : ks.Nodup) (l before : List α) (hmem : ∀ a ∈ l, a ∈ ks) :
    sizesOfTagged partition f (ks.map before.count) (entriesAfter ks before l)
      = .ok (ks.map (before ++ l).count) := by
  induction l generalizing before with
  | nil => rw [List.append_nil]; rfl
  | cons a rest ih =>
    have ha := hmem a List.mem_cons_self
    have hlt := List.idxOf_lt_length_of_mem ha
    -- an element raises what is needed of its own class and of no other one
    have hmodify : (ks.map before.count).modify (ks.idxOf a) (max · (before.count a + 1))
        = ks.map (before ++ [a]).count := by
      refine List.ext_getElem (by simp) ?_
      intro i hi _
      rw [List.length_modify, List.length_map] at hi
      rw [List.getElem_modify, List.getElem_map, List.getElem_map, List.count_append]
      by_cases hia : ks[i] = a
      · have hidx : ks.idxOf a = i := by rw [← hia, hks.idxOf_getElem i hi]
        rw [if_pos hidx, hia, List.count_singleton_self]
        omega
      · have hne : ks.idxOf a ≠ i := by
          rintro rfl
          exact hia (List.getElem_idxOf hlt)
        rw [if_neg hne, List.count_singleton, if_neg (by simpa using Ne.symm hia)]
        omega
    have hnext := ih (before ++ [a]) fun b hb => hmem b (List.mem_cons_of_mem _ hb)
    rw [List.append_assoc, List.singleton_append] at hnext
    rw [entriesAfter, List.map_cons, ranksAfter, List.map_cons, List.zip_cons_cons, sizesOfTagged,
      if_neg (by rw [List.length_map, Int.toNat_natCast]; omega), if_neg (by simp)]
    simp only [Int.toNat_natCast, Int.ofNat_eq_natCast]
    rw [hmodify]
    exact hnext

theorem count_map_class? (k : Option ElementClass) (vs : List Value) :
    (vs.map Value.class?).count k = (Value.ofClass k vs).length := by
  rw [List.count_eq_countP, List.countP_map, List.countP_eq_length_filter]
  rfl

/-- Columns of the classes `ks`, from which the values of every class are read back. -/
abbrev OfClasses (ks : List (Option ElementClass)) (vs : List Value)
    (columns : List (Array Value)) : Prop :=
  List.Forall₂ (fun k out => List.Forall₂ Reads (Value.ofClass k vs) out.toList) ks columns

/-- Tags and places pick the values of every class. -/
theorem reads_taggedItem {ks : List (Option ElementClass)} {columns : List (Array Value)}
    (rest before : List Value) (h : OfClasses ks (before ++ rest) columns)
    (hmem : ∀ v ∈ rest, v.class? ∈ ks) :
    List.Forall₂ Reads rest
      ((entriesAfter ks (before.map Value.class?) (rest.map Value.class?)).map
        (taggedItem columns)) := by
  induction rest generalizing before with
  | nil => exact .nil
  | cons v rest ih =>
    have hlt := List.idxOf_lt_length_of_mem (hmem v List.mem_cons_self)
    have hcolumn := h.get hlt (by rw [← h.length_eq]; exact hlt)
    simp only [List.get_eq_getElem, List.getElem_idxOf] at hcolumn
    rw [Value.ofClass_append] at hcolumn
    obtain ⟨zs, ws, hout, hzs, hws⟩ := reads_append hcolumn
    rw [← List.singleton_append, Value.ofClass_append, Value.ofClass_self rfl] at hws
    cases hws with
    | @cons _ w _ ws hw _ =>
      have hnext := ih (before ++ [v]) (by simpa using h)
        fun u hu => hmem u (List.mem_cons_of_mem _ hu)
      rw [List.map_append, List.map_singleton] at hnext
      rw [List.map_cons, entriesAfter, List.map_cons, ranksAfter, List.map_cons,
        List.zip_cons_cons, List.map_cons]
      refine .cons ?_ hnext
      -- the place is the number of values of this class before
      have hget : (columns[ks.idxOf v.class?]?).bind (·[zs.length]?) = some w := by
        rw [List.getElem?_eq_getElem (by rw [← h.length_eq]; exact hlt), Option.bind_some,
          ← Array.getElem?_toList, hout]
        simp
      rw [taggedItem, count_map_class?, hzs.length_eq]
      simp only [Int.toNat_natCast, Int.ofNat_eq_natCast]
      rw [hget]
      exact hw

/-! ### Rows -/

theorem reads_getD {xs ys : List Value} (h : List.Forall₂ Reads xs ys) (i : Nat) :
    Reads ((xs[i]?).getD .null) ((ys[i]?).getD .null) := by
  induction h generalizing i with
  | nil => exact .same _
  | cons hx _ ih =>
    cases i with
    | zero => simpa using hx
    | succ i => simpa using ih i

/-- The values in one row of several columns. -/
theorem reads_row {parts : List (List Value)} {columns : List (Array Value)}
    (h : List.Forall₂ (fun part out => List.Forall₂ Reads part out.toList) parts columns)
    (i : Nat) :
    List.Forall₂ Reads (parts.map fun part => (part[i]?).getD .null) (row columns i) := by
  induction h with
  | nil => exact .nil
  | @cons part out _ _ hpart _ ih =>
    have hhead : Reads ((part[i]?).getD .null) ((out[i]?).getD .null) := by
      simpa using reads_getD hpart i
    exact .cons hhead ih

theorem reads_range {vs : List Value} {g : Nat → Value}
    (h : ∀ i v, vs[i]? = some v → Reads v (g i)) :
    List.Forall₂ Reads vs ((Array.range vs.length).map g).toList := by
  refine List.forall₂_iff_get.mpr ⟨by simp, ?_⟩
  intro i hi hi'
  simpa using h i _ (List.getElem?_eq_getElem hi)

end Form

end Columnar
