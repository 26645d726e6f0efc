import Columnar.Proofs.Column.Paths

/-!
# The fields of records

The fields of a column of records are open at first, unless they are declared, and settled once a
record is closed.  A push into the column keeps the fields, in their order; only the choice of a
field that is not there yet adds one, and a checked choice does so only while the fields are not
settled.  A field that comes late is missing in every record before it, and stays missing there.

## Main definitions

* `Column.fieldKeys` — the keys of the fields, in order.
* `Column.SettledBy`, `Column.DeclaredBy` — when the fields are settled, and which are declared.
* `Column.Missing`, `Column.MissingField` — missing elements at the start of a column, and of a
  field.

## Main results

* `Column.Takes.record_cases` — what a push does to a column of records.
* `Column.SettledBy.takes`, `Column.DeclaredBy.takes` — **fields are settled when they are
  declared or a record is complete, and declared fields are kept by checked choices.**
* `Column.Missing.takes` — missing elements stay missing.
-/

namespace Columnar

/-- A push chooses no field without a check. -/
def Push.IsChecked : Push → Prop
  | .field _ check => check = true
  | _ => True

namespace Column

/-- The keys of the fields of records, in order. -/
def fieldKeys : Column → List String
  | .record _ fields _ _ _ _ => fields.map Prod.fst
  | _ => []

/-- The fields of records are settled if they are declared or a record is complete. -/
def SettledBy (o : Options) : Column → Prop
  | .record name _ n _ settled declared =>
    declared = (o.declaredFields? name).isSome ∧ settled = (declared || decide (0 < n))
  | _ => True

/-- The fields of records of a declared name are those that are declared. -/
def DeclaredBy (o : Options) : Column → Prop
  | .record name fields _ _ _ _ =>
    ∀ keys, o.declaredFields? name = some keys → fields.map Prod.fst = keys.eraseDups
  | _ => True

variable {o : Options} {p : Push} {c c' : Column} {name : Option String}

theorem exists_record (hk : c.class? = some (.record name)) :
    ∃ fields n filling settled declared, c = .record name fields n filling settled declared := by
  cases c with
  | record name' fields n filling settled declared =>
    cases hk
    exact ⟨_, _, _, _, _, rfl⟩
  | _ => cases hk

/-! ### What a push does -/

/-- **What a push does to a column of records**, which stays one: it leaves the keys as they are,
and may complete a record; or it adds a field, unless the choice is checked and the fields are
settled. -/
theorem Takes.record_cases {fields : List (String × Column)} {n : Nat} {filling : Filling}
    {settled declared : Bool} (h : Takes o (.record name fields n filling settled declared) p c')
    (hk : c'.class? = some (.record name)) :
    ∃ fields' n' filling' settled',
      c' = .record name fields' n' filling' settled' declared ∧
        (fields'.map Prod.fst = fields.map Prod.fst ∧
            (n' = n ∧ settled' = settled ∨ n' = n + 1 ∧ settled' = true) ∨
          ∃ key check, p = .field key check ∧ (check && settled) = false ∧
            fieldIndex? fields key = none ∧ fields' = fields ++ [(key, .unknown n)] ∧
            n' = n ∧ settled' = settled) := by
  cases h with
  | first_null | other => cases hk
  | own hc hp hk' =>
    cases hk'
    cases p <;> cases hp
    exact ⟨_, _, _, _, rfl, .inl ⟨rfl, .inl ⟨rfl, rfl⟩⟩⟩
  | record_field => exact ⟨_, _, _, _, rfl, .inl ⟨rfl, .inl ⟨rfl, rfl⟩⟩⟩
  | record_new hs hi hcheck =>
    exact ⟨_, _, _, _, rfl, .inr ⟨_, _, rfl, hcheck, hi, rfl, rfl, rfl⟩⟩
  | record_end => exact ⟨_, _, _, _, rfl, .inl ⟨keys_fillFields _ _, .inr ⟨rfl, rfl⟩⟩⟩
  | record_slot => exact ⟨_, _, _, _, rfl, .inl ⟨keys_setField _ _ _, .inl ⟨rfl, rfl⟩⟩⟩

theorem settledBy_first (o : Options) (name : Option String) :
    (first o (.beginRecord name)).SettledBy o := by
  rw [first_beginRecord, emptyRecords]
  cases h : o.declaredFields? name <;> exact ⟨by rw [h]; rfl, rfl⟩

/-- The fields stay settled as they were, and are settled when a record is closed. -/
theorem SettledBy.takes (hset : c.SettledBy o) (h : Takes o c p c')
    (hk : c.class? = some (.record name)) (hk' : c'.class? = some (.record name)) :
    c'.SettledBy o := by
  obtain ⟨fields, n, filling, settled, declared, rfl⟩ := exists_record hk
  obtain ⟨hdeclared, hsettled⟩ := hset
  obtain ⟨fields', n', filling', settled', rfl, ⟨-, ⟨rfl, rfl⟩ | ⟨rfl, rfl⟩⟩ |
    ⟨key, check, -, -, -, -, rfl, rfl⟩⟩ := h.record_cases hk'
  · exact ⟨hdeclared, hsettled⟩
  · exact ⟨hdeclared, by simp⟩
  · exact ⟨hdeclared, hsettled⟩

theorem SettledBy.clear (hset : c.SettledBy o) : c.clear.SettledBy o := by
  cases c with
  | record name fields n filling settled declared =>
    rw [Column.clear]
    exact ⟨hset.1, by simp⟩
  | _ => trivial

theorem declaredBy_first (o : Options) (name : Option String) :
    (first o (.beginRecord name)).DeclaredBy o := by
  obtain ⟨fields, settled, declared, he, -, hkeys⟩ := exists_first_beginRecord o name
  rw [he]
  intro keys hdeclared
  rw [hkeys, hdeclared]
  rfl

/-- A checked choice adds no field to those that are settled. -/
theorem Takes.fieldKeys_eq (hset : c.SettledBy o) (h : Takes o c p c') (hp : p.IsChecked)
    (hk : c.class? = some (.record name)) (hk' : c'.class? = some (.record name))
    (hsettled : (o.declaredFields? name).isSome ∨ 0 < c.length) :
    c'.fieldKeys = c.fieldKeys ∧ c.length ≤ c'.length := by
  obtain ⟨fields, n, filling, settled, declared, rfl⟩ := exists_record hk
  have hlength : (record name fields n filling settled declared).length = n := rfl
  rw [hlength] at hsettled ⊢
  obtain ⟨hdeclared, hset⟩ := hset
  obtain ⟨fields', n', filling', settled', rfl, ⟨hkeys, hn⟩ |
    ⟨key, check, rfl, hcheck, -⟩⟩ := h.record_cases hk'
  · refine ⟨hkeys, ?_⟩
    change n ≤ n'
    omega
  · obtain rfl : check = true := hp
    rw [Bool.true_and, hset, hdeclared] at hcheck
    rcases hsettled with hsome | hpos
    · simp [hsome] at hcheck
    · simp [hpos] at hcheck

/-- Declared fields are kept by checked choices. -/
theorem DeclaredBy.takes (hdecl : c.DeclaredBy o) (hset : c.SettledBy o) (h : Takes o c p c')
    (hp : p.IsChecked) (hk : c.class? = some (.record name))
    (hk' : c'.class? = some (.record name)) : c'.DeclaredBy o := by
  obtain ⟨fields, n, filling, settled, declared, rfl⟩ := exists_record hk
  obtain ⟨fields', n', filling', settled', declared', rfl⟩ := exists_record hk'
  intro keys hkeys
  rw [← hdecl keys hkeys]
  exact (h.fieldKeys_eq hset hp hk hk' (.inl (by rw [hkeys]; rfl))).1

theorem DeclaredBy.clear (hdecl : c.DeclaredBy o) : c.clear.DeclaredBy o := by
  cases c with
  | record name fields n filling settled declared =>
    rw [Column.clear]
    intro keys hkeys
    rw [keys_clearFields]
    exact hdecl keys hkeys
  | _ => trivial

theorem fieldKeys_clear (c : Column) : c.clear.fieldKeys = c.fieldKeys := by
  cases c with
  | record name fields n filling settled declared =>
    rw [clear]
    exact keys_clearFields fields
  | _ => rfl

/-! ### Missing elements -/

/-- The first `n` elements are missing. -/
def Missing (n : Nat) : Column → Prop
  | .unknown m => n ≤ m
  | .option index _ => ∀ i < n, index[i]? = some none
  | _ => n = 0

theorem missing_zero (c : Column) : c.Missing 0 := by
  cases c with
  | unknown m => exact m.zero_le
  | option index content =>
    intro i hi
    exact absurd hi i.not_lt_zero
  | _ => rfl

theorem Missing.eq_zero {n : Nat} (hm : c.Missing n) (hu : c.kind ≠ .unknown)
    (ho : c.kind ≠ .option) : n = 0 := by
  cases c with
  | unknown m => exact absurd rfl hu
  | option index content => exact absurd rfl ho
  | _ => exact hm

/-- One more place leaves those before it. -/
theorem missing_push {index : Array (Option Nat)} {content content' : Column} {n : Nat}
    (h : (option index content).Missing n) (place : Option Nat) :
    (option (index.push place) content').Missing n := by
  intro i hi
  have hget := h i hi
  obtain ⟨hlt, -⟩ := Array.getElem?_eq_some_iff.mp hget
  rwa [Array.getElem?_push_lt hlt, ← Array.getElem?_eq_getElem hlt]

/-- **Missing elements stay missing.** -/
theorem Missing.takes {n : Nat} (hm : c.Missing n) (h : Takes o c p c') : c'.Missing n := by
  rcases Nat.eq_zero_or_pos n with rfl | hn
  · exact missing_zero c'
  · cases h with
    | unknown_null m => exact Nat.le_succ_of_le hm
    | unknown_first m hp =>
      have hle : n ≤ m := hm
      rw [afterNulls, if_neg (by omega)]
      intro i hi
      rw [Array.getElem?_push_lt (by simp; omega)]
      simp
    | option_null | option_present => exact missing_push hm _
    | option_open => exact hm
    | first_null _ hu ho => exact absurd (hm.eq_zero hu ho) (Nat.ne_of_gt hn)
    | own _ _ hk | other _ _ hk =>
      obtain ⟨hu, ho, -⟩ := kind_ne_of_class? hk
      exact absurd (hm.eq_zero hu ho) (Nat.ne_of_gt hn)
    | _ => exact absurd hm (Nat.ne_of_gt hn)

theorem Missing.moves {n : Nat} (hm : c.Missing n) (h : Moves o p c c') : c'.Missing n := by
  obtain rfl | ⟨q, -, h⟩ := h
  · exact hm
  · exact hm.takes h

/-- The first `n` records have no value in a field. -/
def MissingField (name : Option String) (key : String) (n : Nat) (c : Column) : Prop :=
  ∃ d, c.child? (.field name key) = some d ∧ d.Missing n

/-- A field stays missing where it was. -/
theorem MissingField.takes {key : String} {n : Nat} (hm : c.MissingField name key n)
    (hs : c.Sound) (h : Takes o c p c') (hk : c.class? = some (.record name))
    (hk' : c'.class? = some (.record name)) : c'.MissingField name key n := by
  obtain ⟨d, hd, hmissing⟩ := hm
  obtain ⟨d', hd', hmoves⟩ := (h.evolves_child? hs hk hk' _).exists_moved hd
  exact ⟨d', hd', hmissing.moves hmoves⟩

/-- A field that is added is missing in every record so far. -/
theorem missingField_new {fields : List (String × Column)} {n : Nat} {filling : Filling}
    {settled declared : Bool} {key : String} (hi : fieldIndex? fields key = none) :
    (record name (fields ++ [(key, .unknown n)]) n filling settled declared).MissingField name key
      n := by
  refine ⟨.unknown n, ?_, Nat.le_refl n⟩
  have hlen : (columnsOf fields ++ [unknown n])[fields.length]? = some (.unknown n) := by
    rw [← columnsOf_length, List.getElem?_concat_length]
  rw [child?, fieldIndex?_concat hi, columnsOf_concat]
  exact hlen

end Column

end Columnar
