import Mathlib.Tactic.Choose
import Columnar.Proofs.Column.Runs
import Columnar.Proofs.Column.Widened

/-!
# Pushes into wider columns

What a column takes, a wider one takes as well, as long as the column after the push fits into
its shape.  So pushes are followed from their end: where a wider column stands for the last
column of a run, there is one of the same shape for each column before it.

## Main definitions

* `Column.Replays` — a wider column takes a push.

## Main results

* `Column.Takes.replays`, `Column.TakesAll.replays` — **a wider column takes what the column
  takes.**
* `Column.TakesAll.of_clear` — pushes are taken once more after clearing.
-/

namespace Columnar

/-- Columns that are there place by place make up a list. -/
theorem exists_list {α : Type} {n : Nat} {P : Nat → α → Prop} (h : ∀ i < n, ∃ a, P i a) :
    ∃ l : List α, l.length = n ∧ ∀ i a, l[i]? = some a → P i a := by
  choose f hf using h
  refine ⟨List.ofFn fun i : Fin n => f i i.isLt, by simp, ?_⟩
  intro i a hi
  obtain ⟨hlt, rfl⟩ := List.getElem?_eq_some_iff.mp hi
  rw [List.getElem_ofFn]
  exact hf _ _

namespace Column

/-! ### Pushes into wider columns -/

/-- A wider column takes a push and becomes `e`. -/
def Replays (o : Options) (c : Column) (p : Push) (e : Column) : Prop :=
  ∃ d, Widened c d ∧ d.clear = e.clear ∧ Takes o d p e

variable {o : Options} {n : Nat} {p : Push} {c c' e : Column}

theorem class?_of_clear_eq {d : Column} (h : d.clear = e.clear) : d.class? = e.class? := by
  rw [← class?_clear d, h, class?_clear]

theorem allPresent_succ (n : Nat) : allPresent (n + 1) = (allPresent n).push (some n) := by
  simp [allPresent, Array.range_succ]

/-- What an inactive column takes and is no missing element begins an element. -/
theorem Takes.exists_class_of_idle (h : Takes o c p c') (ha : c.isActive = false)
    (hu : c.kind ≠ .unknown) (ho : c.kind ≠ .option) (ho' : c'.kind ≠ .option) :
    ∃ k, p.elementClass? = some k := by
  rcases h.begins ha with rfl | hk
  · rw [(h.unique (takes_null ha)), appendNull_of_kind hu ho] at ho'
    exact absurd rfl ho'
  · exact hk

/-- A push into a column where elements may be missing. -/
theorem Replays.present (hs : c.Sound) (h : Takes o c p c') (hu : c.kind ≠ .unknown)
    (ho : c.kind ≠ .option) (ho' : c'.kind ≠ .option) (hr : Replays o c p e) :
    Replays o c p (.option (allPresent c'.begun) e) := by
  obtain ⟨d, hwide, hclear, htakes⟩ := hr
  have hbegun : c'.begun = c.length + 1 := h.length_add hs
  refine ⟨.option (allPresent c.begun) d, .present hu ho hwide, by rw [clear, clear, hclear], ?_⟩
  cases ha : c.isActive with
  | true =>
    have heq : c.begun = c'.begun := by rw [hbegun, begun, ha, Bool.toNat_true]
    rw [heq]
    exact .option_open (hwide.length_eq.2.trans ha) htakes
  | false =>
    have heq : c.begun = c.length := by rw [begun, ha, Bool.toNat_false, Nat.add_zero]
    obtain ⟨k, hp⟩ := h.exists_class_of_idle ha hu ho ho'
    rw [heq, hbegun, allPresent_succ, ← hwide.length_eq.1]
    exact .option_present (hwide.length_eq.2.trans ha) hp htakes

/-- A push into a column where there may be elements of other classes. -/
theorem Replays.single {k : ElementClass} {rest : List Column} (hs : c.Sound)
    (h : Takes o c p c') (hk : c.class? = some k) (hk' : c'.class? = some k)
    (he : e.class? = some k) (hwide' : Widened c' e) (hrest : ∀ d ∈ rest, d.clear = d)
    (hr : Replays o c p e) :
    Replays o c p
      (.union (.replicate c'.begun 0) (.range c'.begun) (e :: rest) (openTag 0 c')) := by
  obtain ⟨d, hwide, hclear, htakes⟩ := hr
  have hd : d.class? = some k := (class?_of_clear_eq hclear).trans he
  have hbegun : c'.begun = c.length + 1 := h.length_add hs
  have htag : openTag 0 c' = openTag 0 e := by rw [openTag, openTag, hwide'.length_eq.2]
  refine ⟨_, .single hk hd hwide hrest, by simp only [clear, clearAll, hclear], ?_⟩
  rw [htag]
  cases ha : c.isActive with
  | true =>
    have heq : c.begun = c'.begun := by rw [hbegun, begun, ha, Bool.toNat_true]
    rw [heq, openTag, if_pos ha]
    exact .union_open (List.getElem?_cons_zero) htakes
  | false =>
    have heq : c.begun = c.length := by rw [begun, ha, Bool.toNat_false, Nat.add_zero]
    obtain ⟨hu, ho, -⟩ := kind_ne_of_class? hk
    obtain ⟨k', hp⟩ := h.exists_class_of_idle ha hu ho (kind_ne_of_class? hk').2.1
    have hkk : k' = k := by
      by_contra hne
      rw [h.unique (.other ha hp hk (Ne.symm hne))] at hk'
      cases hk'
    subst hkk
    have hfind : (d :: rest).findIdx? (admits k') = some 0 := by
      simp [List.findIdx?_cons, admits_iff.mpr hd]
    rw [heq, hbegun, openTag, ha, Array.replicate_succ, Array.range_succ, ← hwide.length_eq.1]
    exact .union_own hp hfind List.getElem?_cons_zero htakes

/-- What is wider than elements of one class holds that class, or wraps what does. -/
theorem Widened.class_cases {k : ElementClass} (h : Widened c e) (hk : c.class? = some k) :
    e.class? = some k ∨ (∃ d, Widened c d ∧ e = .option (allPresent c.begun) d) ∨
      ∃ d rest, Widened c d ∧ d.class? = some k ∧ (∀ f ∈ rest, f.clear = f) ∧
        e = .union (.replicate c.begun 0) (.range c.begun) (d :: rest) (openTag 0 c) := by
  cases h with
  | empty | nulls | nulls_option | option | union => cases hk
  | present _ _ h => exact .inr (.inl ⟨_, h, rfl⟩)
  | single hc hd h hrest =>
    rw [hc] at hk
    exact .inr (.inr ⟨_, _, h, hk ▸ hd, hrest, rfl⟩)
  | tuple hlen =>
    rw [class?, hlen] at hk
    exact .inl hk
  | _ => exact .inl hk

/-- To follow a push within a class it is enough to do so where the wider column holds the
class as well. -/
theorem replays_of_class {k : ElementClass} (hs : c.Sound) (h : Takes o c p c')
    (hk : c.class? = some k) (hk' : c'.class? = some k)
    (hbare : ∀ e, Widened c' e → e.class? = some k → Replays o c p e) (hw : Widened c' e) :
    Replays o c p e := by
  induction e using Column.induct with
  | node e ih =>
    rcases hw.class_cases hk' with he | ⟨d, hd, rfl⟩ | ⟨d, rest, hd, hdk, hrest, rfl⟩
    · exact hbare e hw he
    · obtain ⟨hu, ho, -⟩ := kind_ne_of_class? hk
      exact .present hs h hu ho (kind_ne_of_class? hk').2.1 (ih d (List.mem_singleton_self _) hd)
    · exact .single hs h hk hk' hdk hd hrest (hbare d hd hdk)

/-- To follow a push that ends in a union it is enough to do so where the wider column is a
union as well. -/
theorem replays_of_union {tags index : Array Nat} {children : List Column}
    {current : Option Nat} (hs : c.Sound) (h : Takes o c p (.union tags index children current))
    (hu : c.kind ≠ .unknown) (ho : c.kind ≠ .option)
    (hbare : ∀ children' : List Column, children.map class? <+: children'.map class? →
      (∀ (i : Nat) (d : Column), children'[i]? = some d →
        Widened ((children[i]?).getD (.unknown 0)) d) →
      Replays o c p (.union tags index children' current))
    (hw : Widened (.union tags index children current) e) : Replays o c p e := by
  induction e using Column.induct with
  | node e ih =>
    cases hw with
    | present _ _ hw => exact .present hs h hu ho nofun (ih _ (List.mem_singleton_self _) hw)
    | union hclass hchildren => exact hbare _ hclass hchildren
    | single hk => cases hk

/-! ### Missing elements -/

/-- A missing element, and what a wider column becomes with it. -/
theorem Widened.of_appendNull (hw : Widened c.appendNull e) (ha : c.isActive = false) :
    ∃ d, Widened c d ∧ d.clear = e.clear ∧ d.isActive = false ∧ d.appendNull = e := by
  rcases kind_cases c with ⟨n, rfl⟩ | ⟨index, content, rfl⟩ | ⟨hu, ho⟩
  · cases hw with
    | nulls => exact ⟨.unknown n, .nulls n, rfl, rfl, rfl⟩
    | @nulls_option _ d hd =>
      have hactive := (empty_clear d).2
      rw [hd] at hactive
      refine ⟨.option (.replicate n none) d, .nulls_option n hd, rfl, hactive, ?_⟩
      rw [appendNull, Array.replicate_succ]
    | present hu => exact absurd rfl hu
    | single hk => cases hk
  · cases hw with
    | option h =>
      exact ⟨_, .option h, rfl, h.length_eq.2.trans ha, rfl⟩
    | present _ ho => exact absurd rfl ho
    | single hk => cases hk
  · rw [appendNull_of_kind hu ho] at hw
    have hbegun : c.begun = c.length := by rw [begun, ha, Bool.toNat_false, Nat.add_zero]
    cases hw with
    | option h =>
      refine ⟨_, .present hu ho h, rfl, h.length_eq.2.trans ha, ?_⟩
      rw [appendNull, hbegun]
    | present _ ho => exact absurd rfl ho
    | single hk => cases hk

/-- A slot at the end of its row, and what a wider one was before. -/
theorem Widened.of_fillSlot {n : Nat} (hw : Widened (fillSlot n c) e) (ha : c.isActive = false) :
    ∃ d, Widened c d ∧ d.clear = e.clear ∧ d.isActive = false ∧ fillSlot n d = e := by
  unfold fillSlot at hw
  split at hw
  · next hn =>
    obtain ⟨d, hwide, hclear, hactive, happend⟩ := hw.of_appendNull ha
    refine ⟨d, hwide, hclear, hactive, ?_⟩
    rw [fillSlot, if_pos (hwide.length_eq.1.trans hn), happend]
  · next hn =>
    refine ⟨e, hw, rfl, hw.length_eq.2.trans ha, ?_⟩
    rw [fillSlot, if_neg fun heq => hn (hw.length_eq.1.symm.trans heq)]

/-! ### Elements of the own class -/

theorem map_realOfInt_ofReal (values : Array Int64) :
    (values.map realOfInt).map Complex.ofReal = values.map complexOfInt := by
  simp [Function.comp_def, complexOfInt]

/-- Numbers, and what wider ones were before one more. -/
theorem Widened.of_accept_number (hp : p.elementClass? = some .number)
    (hk : c.class? = some .number) (hw : Widened (c.accept p) e) (he : e.class? = some .number) :
    ∃ d, Widened c d ∧ d.clear = e.clear ∧ d.accept p = e := by
  cases c with
  | int64 values =>
    cases p with
    | int n =>
      cases hw with
      | int64 => exact ⟨_, .int64 values, rfl, rfl⟩
      | int64_float64 => exact ⟨_, .int64_float64 values, rfl, by simp [accept]⟩
      | int64_complex128 => exact ⟨_, .int64_complex128 values, rfl, by simp [accept]⟩
      | present | single => cases he
    | real x =>
      cases hw with
      | float64 => exact ⟨_, .int64_float64 values, rfl, rfl⟩
      | float64_complex128 =>
        refine ⟨_, .int64_complex128 values, rfl, ?_⟩
        rw [accept, Array.map_push, map_realOfInt_ofReal]
      | present | single => cases he
    | complex z =>
      cases hw with
      | complex128 => exact ⟨_, .int64_complex128 values, rfl, rfl⟩
      | present | single => cases he
    | _ => cases hp
  | float64 values =>
    cases p with
    | int n =>
      cases hw with
      | float64 => exact ⟨_, .float64 values, rfl, rfl⟩
      | float64_complex128 =>
        exact ⟨_, .float64_complex128 values, rfl, by simp [accept, complexOfInt]⟩
      | present | single => cases he
    | real x =>
      cases hw with
      | float64 => exact ⟨_, .float64 values, rfl, rfl⟩
      | float64_complex128 => exact ⟨_, .float64_complex128 values, rfl, by simp [accept]⟩
      | present | single => cases he
    | complex z =>
      cases hw with
      | complex128 => exact ⟨_, .float64_complex128 values, rfl, rfl⟩
      | present | single => cases he
    | _ => cases hp
  | complex128 values =>
    cases p with
    | int | real | complex =>
      cases hw with
      | complex128 => exact ⟨_, .complex128 values, rfl, rfl⟩
      | present | single => cases he
    | _ => cases hp
  | _ => cases hk

/-- Elements of the own class, and what a wider column was before one more. -/
theorem Widened.of_accept {k : ElementClass} (ha : c.isActive = false)
    (hp : p.elementClass? = some k) (hk : c.class? = some k) (hw : Widened (c.accept p) e)
    (he : e.class? = some k) : ∃ d, Widened c d ∧ d.clear = e.clear ∧ d.accept p = e := by
  cases c with
  | unknown | option | union => cases hk
  | int64 | float64 | complex128 =>
    cases hk
    exact hw.of_accept_number hp rfl he
  | bool values =>
    cases p <;> cases hk <;> cases hp
    cases hw with
    | bool => exact ⟨_, .bool values, rfl, rfl⟩
    | present | single => cases he
  | time kind unit counts =>
    cases p <;> cases hk <;> cases hp
    cases hw with
    | time => exact ⟨_, .time kind unit counts, rfl, rfl⟩
    | present | single => cases he
  | string encoding offsets data =>
    cases p <;> cases hk <;> cases hp
    cases hw with
    | string => exact ⟨_, .string encoding offsets data, rfl, rfl⟩
    | present | single => cases he
  | list offsets content isOpen =>
    obtain rfl : isOpen = false := ha
    cases p <;> cases hk <;> cases hp
    cases hw with
    | list h => exact ⟨_, .list h, rfl, rfl⟩
    | present | single => cases he
  | tuple slots n filling =>
    cases filling with
    | filling slot => cases ha
    | closed =>
      cases p with
      | beginTuple arity =>
        cases hw with
        | tuple hlen h => exact ⟨_, .tuple hlen h, rfl, rfl⟩
        | present | single => cases he
      | _ =>
        cases hk
        cases hp
  | record name fields n filling settled declared =>
    cases filling with
    | filling slot => cases ha
    | closed =>
      cases p <;> cases hk <;> cases hp
      cases hw with
      | record hkeys h => exact ⟨_, .record hkeys h, rfl, rfl⟩
      | present | single => cases he

/-- A column takes one more element of its class as a narrower one does. -/
theorem replays_accept {k : ElementClass} (hs : c.Sound) (ha : c.isActive = false)
    (hp : p.elementClass? = some k) (hk : c.class? = some k) (hw : Widened (c.accept p) e) :
    Replays o c p e := by
  refine replays_of_class hs (.own ha hp hk) hk (class?_accept hp hk) ?_ hw
  intro e hw he
  obtain ⟨d, hwide, hclear, rfl⟩ := hw.of_accept ha hp hk he
  exact ⟨d, hwide, hclear,
    .own (hwide.length_eq.2.trans ha) hp ((class?_of_clear_eq hclear).trans he)⟩

/-- What the first push makes is one more element of a column that has none. -/
theorem accept_clear_first (o : Options) {k : ElementClass} (hp : p.elementClass? = some k) :
    (first o p).clear.accept p = first o p := by
  cases p with
  | bool | int | real | complex | time => rfl
  | string encoding data =>
    have hfirst : first o (.string encoding data)
        = .string encoding #[0, data.length] data.toArray := rfl
    simp [hfirst, clear, accept]
  | beginList => rfl
  | beginTuple n =>
    rw [first_beginTuple]
    simp only [clear, clearAll_eq, accept, List.map_replicate]
  | beginRecord name =>
    rw [first_beginRecord, emptyRecords]
    cases hd : o.declaredFields? name with
    | none => rfl
    | some keys =>
      have hclear : clearFields (declaredColumns keys) = declaredColumns keys := by
        refine clearFields_eq_iff.mpr fun c hc => ?_
        obtain ⟨f, hf, rfl⟩ := List.mem_map.mp hc
        obtain ⟨key, -, rfl⟩ := List.mem_map.mp (mem_of_mem_tableOf hf)
        rfl
      simp only [clear, accept, hclear]
  | _ => cases hp

/-- A column of any shape takes a first element as one that has no shape yet. -/
theorem replays_first {k : ElementClass} (hp : p.elementClass? = some k)
    (hw : Widened (first o p) e) : ∃ d, d.clear = d ∧ d.clear = e.clear ∧ Takes o d p e := by
  have hclass : (first o p).clear.class? = some k := (class?_clear _).trans (class?_first hp)
  rw [← accept_clear_first o hp] at hw
  obtain ⟨d, hwide, hclear, htakes⟩ :=
    replays_accept (sound_first hp).clear (empty_clear _).2 hp hclass hw
  exact ⟨d, hwide.clear_eq (clear_clear _), hclear, htakes⟩

theorem replays_afterNulls {n : Nat} {k : ElementClass} (hp : p.elementClass? = some k)
    (hw : Widened (afterNulls n (first o p)) e) : Replays o (.unknown n) p e := by
  unfold afterNulls at hw
  split at hw
  · next hn =>
    obtain ⟨d, hd, hclear, htakes⟩ := replays_first hp hw
    exact ⟨d, hn ▸ .empty hd, hclear, htakes⟩
  · cases hw with
    | @option _ _ e hw =>
      obtain ⟨d, hd, hclear, htakes⟩ := replays_first hp hw
      have hempty := empty_clear d
      rw [hd] at hempty
      refine ⟨_, .nulls_option n hd, by rw [clear, clear, hclear], ?_⟩
      rw [← hempty.1]
      exact .option_present hempty.2 hp htakes
    | present _ ho => exact absurd rfl ho
    | single hk => cases hk

/-! ### Slots and fields -/

/-- The place of a key among fields that go on after those there were. -/
theorem fieldIndex?_of_more {fields fields' : List (String × Column)} {key : String} {i : Nat}
    (hkeys : fields.map Prod.fst <+: fields'.map Prod.fst) (hi : fieldIndex? fields key = some i) :
    fieldIndex? fields' key = some i := by
  obtain ⟨more, hmore⟩ := hkeys
  rw [fieldIndex?_eq] at hi
  rw [fieldIndex?_eq, ← hmore, List.findIdx?_append, hi]
  rfl

/-- Wider slots are open where the slots are. -/
theorem isSlotActive_of_widened {slots slots' : List Column} {n : Nat} {slot : Option Nat}
    (h : ∀ (i : Nat) (d : Column), slots'[i]? = some d →
      Widened ((slots[i]?).getD (.unknown n)) d)
    (hidle : isSlotActive slots (.filling slot) = false) :
    isSlotActive slots' (.filling slot) = false := by
  cases slot with
  | none => rfl
  | some i =>
    change isActiveAt slots i = false at hidle
    change isActiveAt slots' i = false
    rw [isActiveAt_eq] at hidle ⊢
    cases hd : slots'[i]? with
    | none => rfl
    | some d =>
      rw [Option.map_some, Option.getD_some, (h i d hd).length_eq.2]
      cases hc : slots[i]? with
      | none => rfl
      | some c =>
        rw [hc] at hidle
        exact hidle

/-- Fields are known by their keys and their columns. -/
theorem fields_ext {fields fields' : List (String × Column)}
    (hkeys : fields.map Prod.fst = fields'.map Prod.fst)
    (hcolumns : columnsOf fields = columnsOf fields') : fields = fields' := by
  refine List.map_injective_iff.mpr Function.injective_id ?_
  have hzip := congrArg₂ List.zip hkeys hcolumns
  rwa [columnsOf, columnsOf, List.zip_map', List.zip_map'] at hzip

/-- Columns one by one wider than others, further ones being wider than `u`. -/
abbrev AllWidened (u : Column) (cs ds : List Column) : Prop :=
  ∀ (i : Nat) (d : Column), ds[i]? = some d → Widened ((cs[i]?).getD u) d

theorem AllWidened.of_concat {u : Column} {cs ds : List Column}
    (h : AllWidened u (cs ++ [u]) ds) : AllWidened u cs ds := by
  intro i d hd
  have hi := h i d hd
  rcases Nat.lt_or_ge i cs.length with hlt | hge
  · rwa [List.getElem?_append_left hlt] at hi
  · rw [List.getElem?_eq_none hge]
    rw [List.getElem?_append_right hge, List.getElem?_singleton] at hi
    split at hi <;> exact hi

/-- Among wider columns, the one at a place takes a push. -/
theorem exists_replays_set {u : Column} {cs ds : List Column} {i : Nat}
    (hw : AllWidened u (cs.set i c') ds) (hle : cs.length ≤ ds.length) (hc : cs[i]? = some c)
    (hr : ∀ e, Widened c' e → Replays o c p e) :
    ∃ d e, Widened c d ∧ Widened c' e ∧ Takes o d p e ∧ (ds.set i d)[i]? = some d ∧
      (ds.set i d).set i e = ds ∧ (ds.set i d).map clear = ds.map clear ∧
      AllWidened u cs (ds.set i d) := by
  obtain ⟨hi, rfl⟩ := List.getElem?_eq_some_iff.mp hc
  have hi' : i < ds.length := Nat.lt_of_lt_of_le hi hle
  have hwe : Widened c' ds[i] := by
    have h := hw i _ (List.getElem?_eq_getElem hi')
    rwa [List.getElem?_set_self hi] at h
  obtain ⟨d, hwide, hclear, htakes⟩ := hr _ hwe
  refine ⟨d, ds[i], hwide, hwe, htakes, List.getElem?_set_self hi', ?_, ?_, ?_⟩
  · rw [List.set_set, List.set_getElem_self]
  · rw [List.map_set, hclear, ← List.map_set, List.set_getElem_self]
  · intro j f hf
    by_cases hij : i = j
    · subst hij
      rw [List.getElem?_set_self hi', Option.some.injEq] at hf
      rw [hc, ← hf]
      exact hwide
    · rw [List.getElem?_set_ne hij] at hf
      have h := hw j f hf
      rwa [List.getElem?_set_ne hij] at h

/-- Wider slots at the end of a row, and what they were before. -/
theorem exists_fillSlots {n : Nat} {cs ds : List Column}
    (hw : AllWidened (.unknown (n + 1)) (fillSlots n cs) ds)
    (hidle : ∀ c ∈ cs, c.isActive = false) :
    ∃ ds', AllWidened (.unknown n) cs ds' ∧ ds'.length = ds.length ∧
      ds'.map clear = ds.map clear ∧ fillSlots n ds' = ds := by
  have hslot : ∀ i < ds.length, ∃ d', Widened ((cs[i]?).getD (.unknown n)) d' ∧
      some d'.clear = ds[i]?.map clear ∧ some (fillSlot n d') = ds[i]? := by
    intro i hi
    have hfill : ((fillSlots n cs)[i]?).getD (.unknown (n + 1))
        = fillSlot n ((cs[i]?).getD (.unknown n)) := by
      rw [fillSlots, List.getElem?_map]
      cases cs[i]? with
      | none => simp [fillSlot, length, appendNull]
      | some c => rfl
    have hactive : ((cs[i]?).getD (.unknown n)).isActive = false := by
      cases hc : cs[i]? with
      | none => rfl
      | some c => exact hidle c (List.mem_of_getElem? hc)
    have hwi := hw i _ (List.getElem?_eq_getElem hi)
    rw [hfill] at hwi
    obtain ⟨d', hwide, hclear, -, heq⟩ := hwi.of_fillSlot hactive
    refine ⟨d', hwide, ?_, ?_⟩
    · rw [List.getElem?_eq_getElem hi, Option.map_some, hclear]
    · rw [List.getElem?_eq_getElem hi, heq]
  obtain ⟨ds', hlen, hds'⟩ := exists_list hslot
  refine ⟨ds', fun i d hd => (hds' i d hd).1, hlen, ?_, ?_⟩
  · refine List.ext_getElem? fun i => ?_
    rw [List.getElem?_map, List.getElem?_map]
    cases hd : ds'[i]? with
    | none => rw [List.getElem?_eq_none (hlen ▸ List.getElem?_eq_none_iff.mp hd), Option.map_none]
    | some d => exact (hds' i d hd).2.1
  · refine List.ext_getElem? fun i => ?_
    rw [fillSlots, List.getElem?_map]
    cases hd : ds'[i]? with
    | none =>
      rw [List.getElem?_eq_none (hlen ▸ List.getElem?_eq_none_iff.mp hd)]
      rfl
    | some d => exact (hds' i d hd).2.2

/-- Wider columns of the fields of a record, under the keys of fields. -/
theorem exists_fields {fields' : List (String × Column)} {ds : List Column}
    (hlen : ds.length = fields'.length) (hclear : ds.map clear = (columnsOf fields').map clear) :
    ∃ fields, columnsOf fields = ds ∧ fields.map Prod.fst = fields'.map Prod.fst ∧
      clearFields fields = clearFields fields' := by
  have hcolumns : columnsOf ((fields'.map Prod.fst).zip ds) = ds :=
    List.map_snd_zip (by simp [hlen])
  have hkeys : ((fields'.map Prod.fst).zip ds).map Prod.fst = fields'.map Prod.fst :=
    List.map_fst_zip (by simp [hlen])
  refine ⟨_, hcolumns, hkeys, fields_ext ?_ ?_⟩
  · rw [keys_clearFields, keys_clearFields, hkeys]
  · rw [columnsOf_clearFields, columnsOf_clearFields, hcolumns, hclear]

theorem length_le_of_keys {fields fields' : List (String × Column)}
    (hkeys : fields.map Prod.fst <+: fields'.map Prod.fst) :
    (columnsOf fields).length ≤ (columnsOf fields').length := by
  simpa [columnsOf] using hkeys.length_le

/-- The choice of a slot of an open tuple. -/
theorem replays_tuple_index {slots : List Column} {slot : Option Nat} {i : Nat}
    (hidle : isSlotActive slots (.filling slot) = false) (hc : slots[i]? = some c)
    (hlen : c.length ≤ n) (hw : Widened (.tuple slots n (.filling (some i))) e)
    (he : e.class? = some (.tuple slots.length)) :
    Replays o (.tuple slots n (.filling slot)) (.index i) e := by
  cases hw with
  | present | single => cases he
  | @tuple _ slots' _ _ hcount h =>
    obtain ⟨hi, rfl⟩ := List.getElem?_eq_some_iff.mp hc
    have hd := List.getElem?_eq_getElem (hcount ▸ hi : i < slots'.length)
    have hwi := h i _ hd
    rw [hc, Option.getD_some] at hwi
    refine ⟨.tuple slots' n (.filling slot), .tuple hcount h, rfl, ?_⟩
    exact .tuple_index (isSlotActive_of_widened h hidle) hd (hwi.length_eq.1 ▸ hlen)

/-- The end of an open tuple. -/
theorem replays_tuple_end {slots : List Column} {slot : Option Nat}
    (hs : (Column.tuple slots n (.filling slot)).Sound)
    (hidle : isSlotActive slots (.filling slot) = false)
    (hw : Widened (.tuple (fillSlots n slots) (n + 1) .closed) e)
    (he : e.class? = some (.tuple slots.length)) :
    Replays o (.tuple slots n (.filling slot)) .endTuple e := by
  cases hw with
  | present | single => cases he
  | @tuple _ slots' _ _ hcount h =>
    obtain ⟨ds, hds, hlen, hclear, hfill⟩ :=
      exists_fillSlots h fun c hc => SlotsSound.not_active hs.node hidle hc
    have hcount' : slots.length = ds.length := by rw [hlen, ← hcount, fillSlots, List.length_map]
    refine ⟨.tuple ds n (.filling slot), .tuple hcount' hds, ?_, ?_⟩
    · rw [clear, clear, clearAll_eq, clearAll_eq, hclear]
    · rw [← hfill]
      exact .tuple_end (isSlotActive_of_widened hds hidle)

/-- A push into the selected slot of an open tuple. -/
theorem replays_tuple_slot {slots : List Column} {i : Nat} (hc : slots[i]? = some c)
    (hlen : c.length ≤ n) (hr : ∀ e, Widened c' e → Replays o c p e)
    (hw : Widened (.tuple (slots.set i c') n (.filling (some i))) e)
    (he : e.class? = some (.tuple slots.length)) :
    Replays o (.tuple slots n (.filling (some i))) p e := by
  cases hw with
  | present | single => cases he
  | @tuple _ slots' _ _ hcount h =>
    rw [List.length_set] at hcount
    obtain ⟨d, e, hwide, -, htakes, hd, hset, hclear, hall⟩ :=
      exists_replays_set h (Nat.le_of_eq hcount) hc hr
    refine ⟨.tuple (slots'.set i d) n (.filling (some i)), .tuple (by simpa using hcount) hall,
      ?_, ?_⟩
    · rw [clear, clear, clearAll_eq, clearAll_eq, hclear]
    · have hstep := Takes.tuple_slot hd (hwide.length_eq.1 ▸ hlen) htakes
      rwa [hset] at hstep

/-- The choice of a field that an open record has. -/
theorem replays_record_field {name : Option String} {fields : List (String × Column)}
    {slot : Option Nat} {settled declared check : Bool} {key : String} {i : Nat}
    (hidle : isSlotActive (columnsOf fields) (.filling slot) = false)
    (hi : fieldIndex? fields key = some i) (hc : (columnsOf fields)[i]? = some c)
    (hlen : c.length ≤ n)
    (hw : Widened (.record name fields n (.filling (some i)) settled declared) e)
    (he : e.class? = some (.record name)) :
    Replays o (.record name fields n (.filling slot) settled declared) (.field key check) e := by
  cases hw with
  | present | single => cases he
  | @record _ _ fields' _ _ _ _ hkeys h =>
    have hlt : i < (columnsOf fields').length :=
      Nat.lt_of_lt_of_le (List.getElem?_eq_some_iff.mp hc).1 (length_le_of_keys hkeys)
    have hd := List.getElem?_eq_getElem hlt
    have hwi := h i _ hd
    rw [hc, Option.getD_some] at hwi
    refine ⟨.record name fields' n (.filling slot) settled declared, .record hkeys h, rfl, ?_⟩
    exact .record_field (isSlotActive_of_widened h hidle) (fieldIndex?_of_more hkeys hi) hd
      (hwi.length_eq.1 ▸ hlen)

/-- The choice of a field that an open record has not: a wider record has it already. -/
theorem replays_record_new {name : Option String} {fields : List (String × Column)}
    {slot : Option Nat} {settled declared check : Bool} {key : String}
    (hidle : isSlotActive (columnsOf fields) (.filling slot) = false)
    (hi : fieldIndex? fields key = none)
    (hw : Widened (.record name (fields ++ [(key, .unknown n)]) n
      (.filling (some fields.length)) settled declared) e)
    (he : e.class? = some (.record name)) :
    Replays o (.record name fields n (.filling slot) settled declared) (.field key check) e := by
  cases hw with
  | present | single => cases he
  | @record _ _ fields' _ _ _ _ hkeys h =>
    rw [columnsOf_concat] at h
    have hall : AllWidened (.unknown n) (columnsOf fields) (columnsOf fields') :=
      AllWidened.of_concat h
    have hlt : fields.length < (columnsOf fields').length := by
      have hle := length_le_of_keys hkeys
      simp [columnsOf] at hle ⊢
      omega
    have hd := List.getElem?_eq_getElem hlt
    have hwi := hall _ _ hd
    rw [List.getElem?_eq_none (by simp [columnsOf])] at hwi
    refine ⟨.record name fields' n (.filling slot) settled declared, .record ?_ hall, rfl, ?_⟩
    · rw [List.map_append] at hkeys
      exact (List.prefix_append _ _).trans hkeys
    · have hnew := fieldIndex?_of_more hkeys (fieldIndex?_concat hi _)
      exact .record_field (isSlotActive_of_widened hall hidle) hnew hd
        (Nat.le_of_eq hwi.length_eq.1)

/-- The end of an open record. -/
theorem replays_record_end {name : Option String} {fields : List (String × Column)}
    {slot : Option Nat} {settled declared : Bool}
    (hs : (Column.record name fields n (.filling slot) settled declared).Sound)
    (hidle : isSlotActive (columnsOf fields) (.filling slot) = false)
    (hw : Widened (.record name (fillFields n fields) (n + 1) .closed true declared) e)
    (he : e.class? = some (.record name)) :
    Replays o (.record name fields n (.filling slot) settled declared) .endRecord e := by
  cases hw with
  | present | single => cases he
  | @record _ _ fields' _ _ _ _ hkeys h =>
    rw [columnsOf_fillFields] at h
    rw [keys_fillFields] at hkeys
    obtain ⟨ds, hds, hlen, hclear, hfill⟩ :=
      exists_fillSlots h fun c hc => hs.node.1.not_active hidle hc
    obtain ⟨fields₁, rfl, hkeys₁, hclear₁⟩ := exists_fields (by simpa [columnsOf] using hlen) hclear
    have hfields : fillFields n fields₁ = fields' :=
      fields_ext (by rw [keys_fillFields, hkeys₁]) (by rw [columnsOf_fillFields, hfill])
    refine ⟨.record name fields₁ n (.filling slot) settled declared,
      .record (hkeys₁ ▸ hkeys) hds, ?_, ?_⟩
    · rw [clear, clear, hclear₁]
    · rw [← hfields]
      exact .record_end (isSlotActive_of_widened hds hidle)

/-- A push into the selected field of an open record. -/
theorem replays_record_slot {name : Option String} {fields : List (String × Column)}
    {settled declared : Bool} {i : Nat} (hc : (columnsOf fields)[i]? = some c)
    (hlen : c.length ≤ n) (hr : ∀ e, Widened c' e → Replays o c p e)
    (hw : Widened (.record name (setField fields i c') n (.filling (some i)) settled declared) e)
    (he : e.class? = some (.record name)) :
    Replays o (.record name fields n (.filling (some i)) settled declared) p e := by
  cases hw with
  | present | single => cases he
  | @record _ _ fields' _ _ _ _ hkeys h =>
    rw [columnsOf_setField] at h
    rw [keys_setField] at hkeys
    obtain ⟨d, e, hwide, -, htakes, hd, hset, hclear, hall⟩ :=
      exists_replays_set h (length_le_of_keys hkeys) hc hr
    refine ⟨.record name (setField fields' i d) n (.filling (some i)) settled declared,
      .record (by rwa [keys_setField]) (by rwa [columnsOf_setField]), ?_, ?_⟩
    · have hfields : clearFields (setField fields' i d) = clearFields fields' := by
        refine fields_ext ?_ ?_
        · rw [keys_clearFields, keys_clearFields, keys_setField]
        · rw [columnsOf_clearFields, columnsOf_clearFields, columnsOf_setField, hclear]
      rw [clear, clear, hfields]
    · have hfields : setField (setField fields' i d) i e = fields' :=
        fields_ext (by rw [keys_setField, keys_setField]) (by simpa using hset)
      have hstep : Takes o (.record name (setField fields' i d) n (.filling (some i)) settled
          declared) p (.record name (setField (setField fields' i d) i e) n (.filling (some i))
          settled declared) :=
        .record_slot (by rwa [columnsOf_setField]) (hwide.length_eq.1 ▸ hlen) htakes
      rwa [hfields] at hstep

/-! ### Unions -/

/-- The first child of a class, among children that go on after those there were. -/
theorem findIdx?_admits_of_more {k : ElementClass} {cs ds : List Column} {tag : Nat}
    (hclass : cs.map class? <+: ds.map class?) (h : cs.findIdx? (admits k) = some tag) :
    ds.findIdx? (admits k) = some tag := by
  have hfind : ∀ es : List Column,
      es.findIdx? (admits k) = (es.map class?).findIdx? (· == some k) := by
    intro es
    rw [List.findIdx?_map]
    refine congrArg (List.findIdx? · es) (funext fun c => ?_)
    rw [Function.comp_apply, Bool.eq_iff_iff, admits_iff, beq_iff_eq]
  obtain ⟨more, hmore⟩ := hclass
  rw [hfind] at h
  rw [hfind, ← hmore, List.findIdx?_append, h]
  rfl

theorem map_class?_of_map_clear {cs ds : List Column} (h : cs.map clear = ds.map clear) :
    cs.map class? = ds.map class? := by
  have hclass : ∀ es : List Column, (es.map clear).map class? = es.map class? := by
    intro es
    rw [List.map_map]
    exact List.map_congr_left fun c _ => class?_clear c
  rw [← hclass, h, hclass]

/-- A child that is pushed into keeps its class. -/
theorem map_class?_set_takes {children : List Column} {tag : Nat}
    (hclasses : ∀ d ∈ children, d.class?.isSome) (hc : children[tag]? = some c)
    (h : Takes o c p c') (hkeep : c.isActive = true ∨ p.elementClass? = c.class?) :
    (children.set tag c').map class? = children.map class? := by
  obtain ⟨k, hk⟩ := Option.isSome_iff_exists.mp (hclasses c (List.mem_of_getElem? hc))
  rw [hk] at hkeep
  exact map_class?_set hc ((h.class?_eq hk hkeep).trans hk.symm)

/-- An element of a class of a union. -/
theorem replays_union_own {tags index : Array Nat} {children children' : List Column}
    {tag : Nat} {k : ElementClass} (hs : (Column.union tags index children none).Sound)
    (hp : p.elementClass? = some k) (ht : children.findIdx? (admits k) = some tag)
    (hc : children[tag]? = some c) (h : Takes o c p c') (hr : ∀ e, Widened c' e → Replays o c p e)
    (hclass : (children.set tag c').map class? <+: children'.map class?)
    (hall : AllWidened (.unknown 0) (children.set tag c') children') :
    Replays o (.union tags index children none) p
      (.union (tags.push tag) (index.push c.length) children' (openTag tag c')) := by
  have hunion : UnionSound tags index children none := hs.node
  have hk : c.class? = some k := by
    obtain ⟨hlt, hadmits, -⟩ := List.findIdx?_eq_some_iff_getElem.mp ht
    rw [List.getElem?_eq_getElem hlt] at hc
    cases hc
    exact admits_iff.mp hadmits
  rw [map_class?_set_takes hunion.classes hc h (.inr (hp.trans hk.symm))] at hclass
  have hle : children.length ≤ children'.length := by simpa using hclass.length_le
  obtain ⟨d, e, hwide, hwide', htakes, hd, hset, hclear, hall'⟩ :=
    exists_replays_set hall hle hc hr
  rw [← map_class?_of_map_clear hclear] at hclass
  refine ⟨.union tags index (children'.set tag d) none, .union hclass hall', ?_, ?_⟩
  · rw [clear, clear, clearAll_eq, clearAll_eq, hclear]
  · have hstep : Takes o (.union tags index (children'.set tag d) none) p
        (.union (tags.push tag) (index.push d.length) ((children'.set tag d).set tag e)
          (openTag tag e)) := .union_own hp (findIdx?_admits_of_more hclass ht) hd htakes
    rwa [hset, hwide.length_eq.1, openTag, hwide'.length_eq.2] at hstep

/-- A push into the open child of a union. -/
theorem replays_union_open {tags index : Array Nat} {children children' : List Column}
    {tag : Nat} (hs : (Column.union tags index children (some tag)).Sound)
    (hc : children[tag]? = some c) (h : Takes o c p c') (hr : ∀ e, Widened c' e → Replays o c p e)
    (hclass : (children.set tag c').map class? <+: children'.map class?)
    (hall : AllWidened (.unknown 0) (children.set tag c') children') :
    Replays o (.union tags index children (some tag)) p
      (.union tags index children' (openTag tag c')) := by
  have hunion : UnionSound tags index children (some tag) := hs.node
  rw [map_class?_set_takes hunion.classes hc h (.inl ((hunion.active_iff tag c hc).mpr rfl))]
    at hclass
  have hle : children.length ≤ children'.length := by simpa using hclass.length_le
  obtain ⟨d, e, hwide, hwide', htakes, hd, hset, hclear, hall'⟩ :=
    exists_replays_set hall hle hc hr
  rw [← map_class?_of_map_clear hclear] at hclass
  refine ⟨.union tags index (children'.set tag d) (some tag), .union hclass hall', ?_, ?_⟩
  · rw [clear, clear, clearAll_eq, clearAll_eq, hclear]
  · have hstep : Takes o (.union tags index (children'.set tag d) (some tag)) p
        (.union tags index ((children'.set tag d).set tag e) (openTag tag e)) :=
      .union_open hd htakes
    rwa [hset, openTag, hwide'.length_eq.2] at hstep

/-- The first element of a class, of which a wider union has a child already. -/
theorem exists_replays_new {k : ElementClass} {children children' : List Column}
    (tags index : Array Nat) (hp : p.elementClass? = some k)
    (hnone : children.findIdx? (admits k) = none)
    (hclass : (children ++ [first o p]).map class? <+: children'.map class?)
    (hall : AllWidened (.unknown 0) (children ++ [first o p]) children') :
    ∃ ds : List Column, children.map class? <+: ds.map class? ∧
      AllWidened (.unknown 0) children ds ∧ ds.map clear = children'.map clear ∧
      Takes o (.union tags index ds none) p
        (.union (tags.push children.length) (index.push 0) children'
          (openChild children.length (first o p))) := by
  have hset : children ++ [first o p]
      = (children ++ [Column.unknown 0]).set children.length (first o p) := by
    rw [List.set_append_right _ _ (Nat.le_refl _), Nat.sub_self, List.set_cons_zero]
  have hle : (children ++ [Column.unknown 0]).length ≤ children'.length := by
    simpa using hclass.length_le
  have hfind : (children ++ [first o p]).findIdx? (admits k) = some children.length := by
    rw [List.findIdx?_append, hnone]
    simp [List.findIdx?_cons, admits_iff.mpr (class?_first hp)]
  have hfirst : ∀ e, Widened (first o p) e → Replays o (.unknown 0) p e :=
    fun e he => replays_afterNulls hp he
  rw [hset] at hall
  obtain ⟨d, e, hwide, hwide', htakes, hd, hset', hclear, hall'⟩ :=
    exists_replays_set hall hle List.getElem?_concat_length hfirst
  rw [← map_class?_of_map_clear hclear] at hclass
  refine ⟨children'.set children.length d, ?_, hall'.of_concat, hclear, ?_⟩
  · rw [List.map_append] at hclass
    exact (List.prefix_append _ _).trans hclass
  · have hstep : Takes o (.union tags index (children'.set children.length d) none) p
        (.union (tags.push children.length) (index.push d.length)
          ((children'.set children.length d).set children.length e)
          (openTag children.length e)) :=
      .union_own hp (findIdx?_admits_of_more hclass hfind) hd htakes
    rwa [hset', hwide.length_eq.1, openTag, hwide'.length_eq.2] at hstep

/-- The first element of another class, of which a wider column has a child already. -/
theorem replays_other {k k' : ElementClass} {children' : List Column} (ha : c.isActive = false)
    (hp : p.elementClass? = some k) (hk : c.class? = some k') (hne : k' ≠ k)
    (hclass : ([c] ++ [first o p]).map class? <+: children'.map class?)
    (hall : AllWidened (.unknown 0) ([c] ++ [first o p]) children') :
    Replays o c p (.union ((Array.replicate c.length 0).push 1) ((Array.range c.length).push 0)
      children' (openChild 1 (first o p))) := by
  have hnone : [c].findIdx? (admits k) = none := by
    rw [List.findIdx?_eq_none_iff]
    intro d hd
    rw [List.mem_singleton.mp hd, Bool.eq_false_iff, ne_eq, admits_iff, hk]
    exact fun heq => hne (Option.some.inj heq)
  obtain ⟨ds, hclass', hall', hclear, htakes⟩ :=
    exists_replays_new (.replicate c.length 0) (.range c.length) hp hnone hclass hall
  have hbegun : c.begun = c.length := by rw [begun, ha, Bool.toNat_false, Nat.add_zero]
  cases ds with
  | nil => simp at hclass'
  | cons d rest =>
    have hd : d.class? = some k' := by
      rw [List.map_singleton, List.map_cons, List.cons_prefix_cons] at hclass'
      exact hclass'.1.symm.trans hk
    have hrest : ∀ f ∈ rest, f.clear = f := by
      intro f hf
      obtain ⟨i, hi, rfl⟩ := List.mem_iff_getElem.mp hf
      have h := hall' (i + 1) rest[i] (by simp [hi])
      exact widened_empty_iff.mp h
    have hwide := Widened.single hk hd (hall' 0 d rfl) hrest
    rw [hbegun, openTag, ha] at hwide
    refine ⟨_, hwide, ?_, htakes⟩
    rw [clear, clear, clearAll_eq, clearAll_eq, hclear]

/-! ### All pushes -/

/-- **A wider column takes what the column takes**, as long as it stays wider: for the column
after the push there is one of the same shape for the column before. -/
theorem Takes.replays (hs : c.Sound) (h : Takes o c p c') (hw : Widened c' e) :
    Replays o c p e := by
  induction h generalizing e with
  | unknown_null n =>
    obtain ⟨d, hwide, hclear, ha, rfl⟩ := Widened.of_appendNull (c := .unknown n) hw rfl
    exact ⟨d, hwide, hclear, takes_null ha⟩
  | unknown_first n hp => exact replays_afterNulls hp hw
  | @option_null index content hc =>
    obtain ⟨d, hwide, hclear, ha, rfl⟩ := Widened.of_appendNull (c := .option index content) hw hc
    exact ⟨d, hwide, hclear, takes_null ha⟩
  | @first_null c ha hu ho =>
    rw [← appendNull_of_kind hu ho] at hw
    obtain ⟨d, hwide, hclear, hd, rfl⟩ := hw.of_appendNull ha
    exact ⟨d, hwide, hclear, takes_null hd⟩
  | @option_present index content content' p k ha hp h ih =>
    cases hw with
    | option hw =>
      obtain ⟨d, hwide, hclear, htakes⟩ := ih (hs.children _ (List.mem_singleton_self _)) hw
      refine ⟨.option index d, .option hwide, by rw [clear, clear, hclear], ?_⟩
      rw [← hwide.length_eq.1]
      exact .option_present (hwide.length_eq.2.trans ha) hp htakes
    | present _ ho => exact absurd rfl ho
    | single hk => cases hk
  | @option_open index content content' p ha h ih =>
    cases hw with
    | option hw =>
      obtain ⟨d, hwide, hclear, htakes⟩ := ih (hs.children _ (List.mem_singleton_self _)) hw
      exact ⟨.option index d, .option hwide, by rw [clear, clear, hclear],
        .option_open (hwide.length_eq.2.trans ha) htakes⟩
    | present _ ho => exact absurd rfl ho
    | single hk => cases hk
  | own ha hp hk => exact replays_accept hs ha hp hk hw
  | other ha hp hk hne =>
    obtain ⟨hu, ho, -⟩ := kind_ne_of_class? hk
    exact replays_of_union hs (.other ha hp hk hne) hu ho
      (fun _ hclass hall => replays_other ha hp hk hne hclass hall) hw
  | @list_end offsets content ha =>
    refine replays_of_class hs (.list_end ha) rfl rfl ?_ hw
    intro e hw he
    cases hw with
    | list hw =>
      refine ⟨_, .list hw, rfl, ?_⟩
      rw [← hw.length_eq.1]
      exact .list_end (hw.length_eq.2.trans ha)
    | present | single => cases he
  | @list_item offsets content content' p h ih =>
    refine replays_of_class hs (.list_item h) rfl rfl ?_ hw
    intro e hw he
    cases hw with
    | list hw =>
      obtain ⟨d, hwide, hclear, htakes⟩ := ih (hs.children _ (List.mem_singleton_self _)) hw
      exact ⟨_, .list hwide, by rw [clear, clear, hclear], .list_item htakes⟩
    | present | single => cases he
  | tuple_index hidle hc hlen =>
    exact replays_of_class hs (.tuple_index hidle hc hlen) rfl rfl
      (fun _ hw he => replays_tuple_index hidle hc hlen hw he) hw
  | tuple_end hidle =>
    exact replays_of_class hs (.tuple_end hidle) rfl (by simp [class?, fillSlots])
      (fun _ hw he => replays_tuple_end hs hidle hw he) hw
  | tuple_slot hc hlen h ih =>
    exact replays_of_class hs (.tuple_slot hc hlen h) rfl (by simp [class?])
      (fun _ hw he => replays_tuple_slot hc hlen
        (fun _ => ih (hs.children _ (List.mem_of_getElem? hc))) hw he) hw
  | record_field hidle hi hc hlen =>
    exact replays_of_class hs (.record_field hidle hi hc hlen) rfl rfl
      (fun _ hw he => replays_record_field hidle hi hc hlen hw he) hw
  | record_new hidle hi hcheck =>
    exact replays_of_class hs (.record_new hidle hi hcheck) rfl rfl
      (fun _ hw he => replays_record_new hidle hi hw he) hw
  | record_end hidle =>
    exact replays_of_class hs (.record_end hidle) rfl rfl
      (fun _ hw he => replays_record_end hs hidle hw he) hw
  | record_slot hc hlen h ih =>
    exact replays_of_class hs (.record_slot hc hlen h) rfl rfl
      (fun _ hw he => replays_record_slot hc hlen
        (fun _ => ih (hs.children _ (List.mem_of_getElem? hc))) hw he) hw
  | union_own hp ht hc h ih =>
    exact replays_of_union hs (.union_own hp ht hc h) (by simp [kind]) (by simp [kind])
      (fun _ hclass hall => replays_union_own hs hp ht hc h
        (fun _ => ih (hs.children _ (List.mem_of_getElem? hc))) hclass hall) hw
  | @union_new tags index children p k hp ht hlt =>
    refine replays_of_union hs (.union_new hp ht hlt) (by simp [kind]) (by simp [kind]) ?_ hw
    intro children' hclass hall
    obtain ⟨ds, hclass', hall', hclear, htakes⟩ :=
      exists_replays_new tags index hp ht hclass hall
    exact ⟨_, .union hclass' hall', by rw [clear, clear, clearAll_eq, clearAll_eq, hclear], htakes⟩
  | union_open hc h ih =>
    exact replays_of_union hs (.union_open hc h) (by simp [kind]) (by simp [kind])
      (fun _ hclass hall => replays_union_open hs hc h
        (fun _ => ih (hs.children _ (List.mem_of_getElem? hc))) hclass hall) hw

/-- **A wider column takes what the column takes**, push after push. -/
theorem TakesAll.replays {d : Nat} {ps : List Push} (hs : c.Sound) (h : TakesAll o d c ps c')
    (hw : Widened c' e) : ∃ c₁, Widened c c₁ ∧ c₁.clear = e.clear ∧ TakesAll o d c₁ ps e := by
  induction h with
  | nil => exact ⟨e, hw, rfl, .nil _ _⟩
  | cons hd h _ ih =>
    obtain ⟨d, hwide, hclear, hrest⟩ := ih (hs.takes h) hw
    obtain ⟨c₁, hwide₁, hclear₁, htakes⟩ := h.replays hs hwide
    exact ⟨c₁, hwide₁, hclear₁.trans hclear, .cons hd htakes hrest⟩

/-- A column that has taken pushes from nothing takes them once more after it is cleared. -/
theorem TakesAll.of_clear {d : Nat} {ps : List Push} (h : TakesAll o d (.unknown 0) ps c) :
    TakesAll o d c.clear ps c := by
  obtain ⟨c₁, hwide, hclear, htakes⟩ := h.replays (sound_unknown 0) (.refl c)
  rwa [← hclear, widened_empty_iff.mp hwide]

end Column

end Columnar
