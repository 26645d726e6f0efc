import Columnar.Proofs.Column.Lacking

/-!
# Closed sets of fields

A column of records may be anywhere in a tree, and what is above and below it changes while it
stays at its place: it becomes optional, joins a union, and is passed over by calls that concern
other places.  Calls after one another do to the column at a place what pushes do to a column of
records, or nothing.  So the fields that are declared, and those of the first record that is
closed, stay what they are under checked choices until the builder is cleared, and a field that
is forced upon a column afterwards is missing in what is there already.

## Main definitions

* `Column.Kept` — what pushes keep, of the columns of a class.
* `Builder.Request.IsChecked` — a call chooses no field without a check.
* `Builder.recordsAt?` — the column of the records of a name at a place.

## Main results

* `Builder.elements_run`, `Builder.exists_elements_run` — what holds of the columns of a class,
  everywhere in a run and at one place from some time on.
* `Builder.fieldSets_run` — **declared fields and the fields of closed records are kept.**
-/

namespace Columnar

open Column

namespace Column

variable {o : Options} {p : Push} {c c' d d' : Column} {k : ElementClass} {key : String}
  {check : Bool}

/-- What pushes of a kind keep, as long as the column is of a class. -/
def Kept (o : Options) (k : ElementClass) (Q : Push → Prop) (P : Column → Prop) : Prop :=
  ∀ {p : Push} {c c' : Column}, Q p → c.Sound → c.class? = some k → c'.class? = some k →
    Takes o c p c' → P c → P c'

theorem Kept.moves {Q : Push → Prop} {P : Column → Prop} (hkept : Kept o k Q P)
    (hnull : Q .null) (hp : Q p) (hs : c.Sound) (hk : c.class? = some k)
    (hk' : c'.class? = some k) (h : Moves o p c c') (hP : P c) : P c' := by
  obtain rfl | ⟨q, rfl | rfl, h⟩ := h
  · exact hP
  · exact hkept hp hs hk hk' h hP
  · exact hkept hnull hs hk hk' h hP

/-- A new field is chosen in a record none of whose fields is open, unless the choice is checked
and the fields are settled. -/
theorem takes_newField_iff {name : Option String} {fields : List (String × Column)} {n : Nat}
    {slot : Option Nat} {settled declared : Bool}
    (hidle : isSlotActive (columnsOf fields) (.filling slot) = false)
    (hnew : fieldIndex? fields key = none) :
    Takes o (.record name fields n (.filling slot) settled declared) (.field key check) c'
      ↔ (check && settled) = false ∧
        c' = .record name (fields ++ [(key, .unknown n)]) n (.filling (some fields.length))
          settled declared := by
  constructor
  · intro h
    cases h with
    | own hc => cases hc
    | other hc => cases hc
    | record_field _ hi =>
      rw [hnew] at hi
      cases hi
    | record_new _ _ hcheck => exact ⟨hcheck, rfl⟩
    | record_slot hc _ h =>
      have hb := h.begins (isActive_of_idle hidle rfl hc)
      have hs := Push.selects?_of_begins hb
      cases hs
  · rintro ⟨hcheck, rfl⟩
    exact .record_new hidle hnew hcheck

/-- None of the fields of the innermost record is open. -/
theorem isSlotActive_of_idle {name : Option String} {fields : List (String × Column)} {n : Nat}
    {slot : Option Nat} {settled declared : Bool}
    (hidle : ∀ e, (record name fields n (.filling slot) settled declared).inner? = some e →
      e.isActive = false) : isSlotActive (columnsOf fields) (.filling slot) = false := by
  cases slot with
  | none => rfl
  | some i =>
    change isActiveAt (columnsOf fields) i = false
    rw [isActiveAt_eq]
    cases he : (columnsOf fields)[i]? with
    | none => rfl
    | some e => exact hidle e he

/-- A field is chosen in the innermost column, which is one of open records. -/
theorem exists_record_of_field (hidle : ∀ e, d.inner? = some e → e.isActive = false)
    (h : Takes o d (.field key check) d') :
    ∃ name fields n slot settled declared,
      d = .record name fields n (.filling slot) settled declared := by
  have hbegins : ∀ {e e' : Column}, d.inner? = some e → ¬ Takes o e (.field key check) e' := by
    intro e e' he ht
    have hs := Push.selects?_of_begins (ht.begins (hidle e he))
    cases hs
  cases h with
  | unknown_first _ hp | own _ hp | other _ hp | option_present _ hp | union_own hp
  | union_new hp => cases hp
  | option_open _ h => exact absurd h (hbegins rfl)
  | list_item h => exact absurd h (hbegins rfl)
  | tuple_slot hc _ h => exact absurd h (hbegins hc)
  | record_slot hc _ h => exact absurd h (hbegins hc)
  | union_open hc h => exact absurd h (hbegins hc)
  | record_field | record_new => exact ⟨_, _, _, _, _, _, rfl⟩

/-- The fields of a cleared column are open again if they are not declared. -/
theorem exists_push_clear_iff {name : Option String} {key : String} (hs : d.Sound)
    (hk : d.class? = some (.record name)) (hset : d.SettledBy o) (hnew : key ∉ d.fieldKeys) :
    (∃ e e', d.clear.push o (.beginRecord name) = .ok e ∧ e.push o (.field key true) = .ok e') ↔
      o.declaredFields? name = none := by
  obtain ⟨fields, n, filling, settled, declared, rfl⟩ := exists_record hk
  obtain ⟨hdeclared, -⟩ := hset
  have hclear := hs.clear
  rw [Column.clear] at hclear ⊢
  have hopen : Takes o (.record name (clearFields fields) 0 .closed declared declared)
      (.beginRecord name) (.record name (clearFields fields) 0 (.filling none) declared declared) :=
    .own rfl rfl rfl
  have hnone : fieldIndex? (clearFields fields) key = none := by
    rw [fieldIndex?_congr key (keys_clearFields fields)]
    exact fieldIndex?_eq_none.mpr hnew
  have hidle : isSlotActive (columnsOf (clearFields fields)) (.filling none) = false := rfl
  constructor
  · rintro ⟨e, e', hpush, hfield⟩
    cases hopen.push_eq.symm.trans hpush
    have htakes := (push_eq_ok_iff (hclear.takes hopen)).mp hfield
    have hnot := ((takes_newField_iff hidle hnone).mp htakes).1
    rw [Bool.true_and, hdeclared] at hnot
    simpa using hnot
  · intro hnot
    refine ⟨_, _, hopen.push_eq, ((takes_newField_iff hidle hnone).mpr ⟨?_, rfl⟩).push_eq⟩
    rw [hdeclared, hnot]
    rfl

end Column

namespace Builder

variable {o : Options} {b : Builder} {k : ElementClass} {path : List PathStep} {d : Column}

/-- A call chooses no field without a check. -/
def Request.IsChecked : Request → Prop
  | .push p => p.IsChecked
  | _ => True

/-! ### Places in a run -/

/-- What a call other than clearing makes of the columns at all places is what one push makes of
them. -/
theorem exists_evolves (hs : b.root.Sound) {call : Request} (hcall : call ≠ .clear) :
    ∃ p, (p = .null ∨ call = .push p) ∧ ∀ path k,
      Evolves b.options p (IsBegun b.options p k) (b.root.elementsAt? path k)
        ((b.after call).root.elementsAt? path k) := by
  have hsame : (b.after call).root = b.root → ∃ p, (p = .null ∨ call = .push p) ∧ ∀ path k,
      Evolves b.options p (IsBegun b.options p k) (b.root.elementsAt? path k)
        ((b.after call).root.elementsAt? path k) := by
    intro he
    rw [he]
    exact ⟨.null, .inl rfl, fun path k => .refl _⟩
  cases call with
  | push p =>
    rcases after_push b p with ⟨b', hpush, hafter⟩ | ⟨-, hafter⟩
    · have htakes := takes_of_push hs (push_eq_ok hpush).1
      rw [hafter]
      exact ⟨p, .inr rfl, fun path k => htakes.evolves_elementsAt? hs path k⟩
    · exact hsame (by rw [hafter])
  | clear => exact absurd rfl hcall
  | finalize => exact hsame rfl
  | setParameter name value => exact hsame rfl

variable {Q : Push → Prop} {P : Column → Prop}

/-- **What pushes keep holds at a place from some time on**, until the builder is cleared. -/
theorem exists_elements_run (hnull : Q .null) (hkept : Kept b.options k Q P)
    (hs : b.root.Sound) (hd : b.root.elementsAt? path k = some d) (hP : P d) {more : List Request}
    (hok : ∀ p, .push p ∈ more → Q p) (hclear : .clear ∉ more) :
    ∃ d', (b.run more).root.elementsAt? path k = some d' ∧ P d' := by
  induction more generalizing b d with
  | nil => exact ⟨d, hd, hP⟩
  | cons call more ih =>
    rw [List.mem_cons, not_or] at hclear
    obtain ⟨p, hp, hevolves⟩ := exists_evolves hs (Ne.symm hclear.1)
    have hokp : Q p := by
      rcases hp with rfl | rfl
      · exact hnull
      · exact hok p List.mem_cons_self
    obtain ⟨d₁, hd₁, hmoves⟩ := (hevolves path k).exists_moved hd
    obtain ⟨hnode, hk⟩ := of_elementsAt? hd
    have hP₁ := hkept.moves hnull hokp (hs.isNode hnode) hk (of_elementsAt? hd₁).2 hmoves hP
    refine ih ?_ (sound_after hs call) hd₁ hP₁ (fun q hq => hok q (List.mem_cons_of_mem _ hq))
      hclear.2
    rw [options_after]
    exact hkept

theorem elementsAt?_unknown (n : Nat) (path : List PathStep) (k : ElementClass) :
    (unknown n).elementsAt? path k = none := by
  cases path <;> rfl

/-- **What pushes keep, and what holds of new columns and of cleared ones, holds at every place**
in every state. -/
theorem elements_run (hnull : Q .null) (hkept : Kept o k Q P)
    (hfirst : ∀ p, p.elementClass? = some k → P (first o p)) (hclear : ∀ d, P d → P d.clear)
    {calls : List Request} (hok : ∀ p, .push p ∈ calls → Q p)
    (hd : ((new o).run calls).root.elementsAt? path k = some d) : P d := by
  induction calls using List.reverseRecOn generalizing d with
  | nil =>
    rw [run_nil, new, elementsAt?_unknown] at hd
    cases hd
  | append_singleton calls call ih =>
    have hs := sound_run o calls
    have hbefore := fun d => ih (d := d) fun p hp => hok p (List.mem_append_left _ hp)
    rw [run_concat] at hd
    by_cases hcall : call = .clear
    · subst hcall
      change (Column.clear _).elementsAt? path k = some d at hd
      rw [elementsAt?_clear] at hd
      obtain ⟨e, he, rfl⟩ := Option.map_eq_some_iff.mp hd
      exact hclear e (hbefore e he)
    · obtain ⟨p, hp, hevolves⟩ := exists_evolves hs hcall
      have hokp : Q p := by
        rcases hp with rfl | rfl
        · exact hnull
        · exact hok p (List.mem_append_right _ (List.mem_singleton_self _))
      have hplace := hevolves path k
      rw [options_run] at hplace
      generalize hx : ((new o).run calls).root.elementsAt? path k = x at hplace
      rw [hd] at hplace
      cases hplace with
      | new hnew =>
        obtain ⟨hclass, rfl⟩ := hnew
        exact hfirst p hclass
      | moved hmoves =>
        obtain ⟨hnode, hk⟩ := of_elementsAt? hx
        exact hkept.moves hnull hokp (hs.isNode hnode) hk (of_elementsAt? hd).2 hmoves
          (hbefore _ hx)

/-! ### The fields of records in a run -/

/-- The column of the records of a name at a place. -/
def recordsAt? (b : Builder) (path : List PathStep) (name : Option String) : Option Column :=
  b.root.elementsAt? path (.record name)

theorem exists_beginRecord {p : Push} {name : Option String}
    (hp : p.elementClass? = some (.record name)) : p = .beginRecord name := by
  cases p <;> cases hp
  rfl

theorem settledBy_run (o : Options) (calls : List Request) {name : Option String}
    (hd : ((new o).run calls).recordsAt? path name = some d) : d.SettledBy o := by
  refine elements_run (Q := fun _ => True) trivial ?_ ?_ (fun _ => SettledBy.clear)
    (fun _ _ => trivial) hd
  · intro p c c' _ _ hk hk' h hset
    exact hset.takes h hk hk'
  · intro p hp
    rw [exists_beginRecord hp]
    exact settledBy_first o name

theorem declaredBy_run (o : Options) {calls : List Request} {name : Option String}
    (hcalls : ∀ call ∈ calls, call.IsChecked)
    (hd : ((new o).run calls).recordsAt? path name = some d) :
    d.DeclaredBy o := by
  have hboth : d.SettledBy o ∧ d.DeclaredBy o := by
    refine elements_run (Q := Push.IsChecked) (P := fun d => d.SettledBy o ∧ d.DeclaredBy o)
      trivial ?_ ?_ (fun _ h => ⟨h.1.clear, h.2.clear⟩) (fun p hp => hcalls _ hp) hd
    · intro p c c' hp _ hk hk' h hset
      exact ⟨hset.1.takes h hk hk', hset.2.takes hset.1 h hp hk hk'⟩
    · intro p hp
      rw [exists_beginRecord hp]
      exact ⟨settledBy_first o name, declaredBy_first o name⟩
  exact hboth.2

/-- Checked choices keep the fields of a column in which a record is complete. -/
theorem exists_fieldKeys_run {name : Option String} (hs : b.root.Sound)
    (hd : b.recordsAt? path name = some d) (hset : d.SettledBy b.options)
    (hpos : 0 < d.length) {more : List Request} (hmore : ∀ call ∈ more, call.IsChecked)
    (hclear : .clear ∉ more) :
    ∃ d', (b.run more).recordsAt? path name = some d' ∧
      d'.fieldKeys = d.fieldKeys ∧ d.length ≤ d'.length := by
  have hrun := exists_elements_run (Q := Push.IsChecked)
    (P := fun e => e.SettledBy b.options ∧ e.fieldKeys = d.fieldKeys ∧ d.length ≤ e.length)
    trivial ?_ hs hd ⟨hset, rfl, Nat.le_refl _⟩ (fun p hp => hmore _ hp) hclear
  · obtain ⟨d', hd', -, hkeys⟩ := hrun
    exact ⟨d', hd', hkeys⟩
  · rintro p c c' hp - hk hk' h ⟨hsettled, hkeys, hlen⟩
    obtain ⟨hkeys', hlen'⟩ := h.fieldKeys_eq hsettled hp hk hk' (.inr (by omega))
    exact ⟨hsettled.takes h hk hk', hkeys'.trans hkeys, by omega⟩

/-- A field that is missing at the start of a column is read as missing there from then on. -/
theorem exists_lacks_run {name : Option String} {key : String} {n : Nat} (hs : b.root.Sound)
    (hd : b.recordsAt? path name = some d)
    (hmissing : d.MissingField name key n) {more : List Request} (hclear : .clear ∉ more)
    (partition : String) :
    let l := (b.run more).layout partition
    ∃ d', (b.run more).recordsAt? path name = some d' ∧ ∃ ps m,
      (d'.layout partition ps m).IsPart l ∧
        (d'.layout partition ps m).form.Lacks key n l.buffers partition := by
  intro l
  have hkept : Kept b.options (.record name) (fun _ => True) (MissingField name key n) := by
    intro p c c' _ hsound hk hk' h hm
    exact hm.takes hsound h hk hk'
  obtain ⟨d', hd', hmissing'⟩ := exists_elements_run (Q := fun _ => True) trivial hkept hs hd
    hmissing (fun _ _ => trivial) hclear
  have hsound := sound_run_of_sound hs more
  have hnode := (of_elementsAt? hd').1
  obtain ⟨ps, m, hpart⟩ := exists_isPart partition hnode (b.run more).parameters 0
  refine ⟨d', hd', ps, m, hpart, hmissing'.lacks (hsound.isNode hnode) ps m fun e he => ?_⟩
  exact stored_layout partition _ _ 0 e (hpart.buffers he)

/-! ### New fields -/

/-- The innermost column is an open record where a new field is chosen. -/
theorem exists_newField {key : String} {check : Bool} {b' : Builder} (hs : b.root.Sound)
    (hpush : b.push (.field key check) = .ok b') (hnew : key ∉ b.root.innermost.fieldKeys) :
    ∃ path name d, b.recordsAt? path name = some b.root.innermost ∧
      b'.recordsAt? path name = some d ∧
      d.fieldKeys = b.root.innermost.fieldKeys ++ [key] ∧
      d.MissingField name key b.root.innermost.length := by
  have htakes := takes_of_push hs (push_eq_ok hpush).1
  have ha : b.root.isActive = true := by
    by_contra hn
    have hselects := Push.selects?_of_begins (htakes.begins (by simpa using hn))
    cases hselects
  obtain ⟨W, hW, hroot, hopen⟩ := exists_within hs ha
  obtain ⟨path, hpath⟩ := hW.exists_path
  have hidle := idle_innermost b.root
  have hs' := hs.takes htakes
  generalize b.root.innermost = d at *
  rw [hroot] at htakes hs
  obtain ⟨d', hroot', h⟩ := hW.exists_takes hopen htakes
  rw [hroot'] at hs'
  simp only [recordsAt?, hroot, hroot']
  obtain ⟨name, fields, n, slot, settled, declared, rfl⟩ := exists_record_of_field hidle h
  have hnone := fieldIndex?_eq_none.mpr hnew
  obtain ⟨-, rfl⟩ := (takes_newField_iff (isSlotActive_of_idle hidle) hnone).mp h
  refine ⟨path, name, _, hpath _ _ rfl hs, hpath _ _ rfl hs', ?_, missingField_new hnone⟩
  exact List.map_append

/-- A push that opens nothing is taken in an open tree if the innermost open container takes it. -/
theorem exists_push_iff_innermost {p : Push} (hs : b.root.Sound) (hf : b.isFinalized = false)
    (ha : b.isActive = true) (hp : p.opens? = none) :
    (∃ b', b.push p = .ok b') ↔ ∃ d', Takes b.options b.root.innermost p d' := by
  obtain ⟨W, hW, hroot, hopen⟩ := exists_within hs ha
  constructor
  · rintro ⟨b', hpush⟩
    obtain ⟨-, root', htakes, -⟩ := (push_eq_ok_iff hs hf).mp hpush
    rw [hroot] at htakes
    obtain ⟨d', -, h⟩ := hW.exists_takes hopen htakes
    exact ⟨d', h⟩
  · rintro ⟨d', h⟩
    rw [hroot] at hs
    have htakes := hW.takes hs hopen h
    rw [← hroot] at hs htakes
    refine ⟨_, (push_eq_ok_iff hs hf).mpr ⟨fun hopens => ?_, _, htakes, rfl⟩⟩
    rw [hp] at hopens
    cases hopens

/-- A new field is taken in the innermost record, unless the choice is checked and the fields are
declared or a record is complete. -/
theorem exists_push_field_iff {name : Option String} {key : String} (check : Bool)
    (hs : b.root.Sound) (hf : b.isFinalized = false) (ha : b.isActive = true)
    (hk : b.root.innermost.class? = some (.record name))
    (hset : b.root.innermost.SettledBy b.options) (hnew : key ∉ b.root.innermost.fieldKeys) :
    (∃ b', b.push (.field key check) = .ok b') ↔
      (check = true → b.options.declaredFields? name = none ∧ b.root.innermost.length = 0) := by
  obtain ⟨-, -, -, hopen⟩ := exists_within hs ha
  have hidle := idle_innermost b.root
  rw [exists_push_iff_innermost hs hf ha rfl]
  generalize b.root.innermost = d at *
  obtain ⟨fields, n, filling, settled, declared, rfl⟩ := exists_record hk
  cases filling with
  | closed => cases hopen
  | filling slot =>
    obtain ⟨hdeclared, hsettled⟩ := hset
    simp only [takes_newField_iff (isSlotActive_of_idle hidle) (fieldIndex?_eq_none.mpr hnew),
      exists_and_left, exists_eq, and_true]
    change _ ↔ (check = true → _ ∧ n = 0)
    rw [hsettled, hdeclared]
    cases check <;> simp

/-- **Closed sets of fields.**  Every column of records stands at a place, however deep in the tree
and in whatever state the builder is.

* If all choices of fields so far were checked, the fields of a declared name are those that were
  declared, in their order and each once.
* Where a record is complete, checked choices keep the fields until the builder is cleared.
* The innermost record takes a new field, unless the choice is checked and the fields are declared
  or a record of the column is complete.
* A new field that is taken is missing in all records before it: in every layout up to the next
  clearing, the elements of the field are missing there, and the records that are read have a
  missing element under its key.
* Clearing leaves the places and the keys, and of the sets of fields it opens those that are not
  declared. -/
theorem fieldSets_run (o : Options) (calls : List Request) :
    let b := (new o).run calls
    (∀ d name, IsNode d b.root → d.class? = some (.record name) →
      ∃ path, b.recordsAt? path name = some d) ∧
    ((∀ call ∈ calls, call.IsChecked) → ∀ path name d keys,
      b.recordsAt? path name = some d → o.declaredFields? name = some keys →
        d.fieldKeys = keys.eraseDups) ∧
    (∀ path name d more, b.recordsAt? path name = some d → 0 < d.length →
      (∀ call ∈ more, call.IsChecked) → .clear ∉ more →
        ∃ d', (b.run more).recordsAt? path name = some d' ∧
          d'.fieldKeys = d.fieldKeys ∧ d.length ≤ d'.length) ∧
    (b.isFinalized = false → b.isActive = true → ∀ name key check,
      b.root.innermost.class? = some (.record name) → key ∉ b.root.innermost.fieldKeys →
        ((∃ b', b.push (.field key check) = .ok b') ↔
          (check = true → o.declaredFields? name = none ∧ b.root.innermost.length = 0))) ∧
    (∀ key check b', b.push (.field key check) = .ok b' → key ∉ b.root.innermost.fieldKeys →
      ∃ path name d, b.recordsAt? path name = some b.root.innermost ∧
        b'.recordsAt? path name = some d ∧
        d.fieldKeys = b.root.innermost.fieldKeys ++ [key] ∧
        ∀ more, .clear ∉ more → ∀ partition,
          let l := (b'.run more).layout partition
          ∃ d', (b'.run more).recordsAt? path name = some d' ∧ ∃ ps m,
            (d'.layout partition ps m).IsPart l ∧ (d'.layout partition ps m).form.Lacks key
              b.root.innermost.length l.buffers partition) ∧
    (∀ path name, b.clear.recordsAt? path name
      = (b.recordsAt? path name).map Column.clear) ∧
    ∀ path name d, b.recordsAt? path name = some d →
      d.clear.fieldKeys = d.fieldKeys ∧ d.clear.length = 0 ∧ ∀ key, key ∉ d.fieldKeys →
        ((∃ e e', d.clear.push o (.beginRecord name) = .ok e ∧
          e.push o (.field key true) = .ok e') ↔ o.declaredFields? name = none) := by
  intro b
  have hs : b.root.Sound := sound_run o calls
  have ho : b.options = o := options_run (new o) calls
  have hset : ∀ {path name d}, b.recordsAt? path name = some d →
      d.SettledBy o := settledBy_run o calls
  refine ⟨fun d name => exists_path hs, ?_, ?_, ?_, ?_, ?_, ?_⟩
  · intro hcalls path name d keys hd hkeys
    obtain ⟨fields, n, filling, settled, declared, rfl⟩ := exists_record (of_elementsAt? hd).2
    exact declaredBy_run o hcalls hd keys hkeys
  · intro path name d more hd hpos hmore hclear
    exact exists_fieldKeys_run hs hd (ho ▸ hset hd) hpos hmore hclear
  · intro hf ha name key check hk hnew
    obtain ⟨W, hW, hroot, -⟩ := exists_within hs ha
    obtain ⟨path, hpath⟩ := hW.exists_path
    have hd := hpath _ _ hk (by rwa [← hroot])
    rw [← hroot] at hd
    have hiff := exists_push_field_iff check hs hf ha hk (ho ▸ hset hd) hnew
    rwa [ho] at hiff
  · intro key check b' hpush hnew
    obtain ⟨path, name, d, hbefore, hd, hkeys, hmissing⟩ := exists_newField hs hpush hnew
    have hs' : b'.root.Sound := hs.takes (takes_of_push hs (push_eq_ok hpush).1)
    refine ⟨path, name, d, hbefore, hd, hkeys, fun more hclear partition => ?_⟩
    exact exists_lacks_run hs' hd hmissing hclear partition
  · intro path name
    exact elementsAt?_clear b.root path _
  · intro path name d hd
    obtain ⟨hnode, hk⟩ := of_elementsAt? hd
    refine ⟨fieldKeys_clear d, (empty_clear d).1, fun key hnew => ?_⟩
    exact exists_push_clear_iff (hs.isNode hnode) hk (hset hd) hnew

/-- In a list after a missing item, a record of a declared name has the declared fields, and takes
another one only without a check. -/
theorem fieldSets_run_declared :
    let o := ({} : Options).declare "R" ["a", "b", "a"]
    let b := (new o).run [.push .beginList, .push .null, .push (.beginRecord (some "R"))]
    (∃ d, b.recordsAt? [.item] (some "R") = some d ∧ d.fieldKeys = ["a", "b"]) ∧
      (¬ ∃ b', b.push (.field "y" true) = .ok b') ∧ ∃ b', b.push (.field "y" false) = .ok b' := by
  intro o b
  obtain ⟨-, hdeclared, -, htaken, -⟩ :=
    fieldSets_run o [.push .beginList, .push .null, .push (.beginRecord (some "R"))]
  have hroot : b.root = .list #[0] (.option #[none, some 0] (.record (some "R")
      [("a", .unknown 0), ("b", .unknown 0)] 0 (.filling none) true true)) true := rfl
  have hin : b.root.innermost
      = .record (some "R") [("a", .unknown 0), ("b", .unknown 0)] 0 (.filling none) true true := by
    rw [hroot, innermost_of_inner rfl rfl, innermost_of_inner rfl rfl]
    exact innermost_record rfl
  have hat : b.recordsAt? [.item] (some "R") = some b.root.innermost := by
    rw [hin, recordsAt?, hroot]
    rfl
  have hy := htaken rfl rfl (some "R") "y"
  rw [hin] at hy
  refine ⟨⟨_, hat, hdeclared ?_ _ _ _ _ hat rfl⟩, ?_, ?_⟩
  · simp [Request.IsChecked, Push.IsChecked]
  · rw [hy true rfl (by decide)]
    intro h
    cases (h rfl).1
  · rw [hy false rfl (by decide)]
    nofun

end Builder

end Columnar
