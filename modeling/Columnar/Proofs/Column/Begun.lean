import Columnar.Proofs.Column.Fits

/-!
# Elements that begin

A push that begins an element is a value that is complete with it, or opens a container.  A
column that is not open takes it as its first element, as one more of its own class, or
after missing ones.

## Main results

* `begin_cases`, `advance_cases` — what a push begins, and what it does to an open container.
* `Column.fits_first`, `Column.fits_accept` — new columns, and elements of the own class.
* `Column.fits_appendNull`, `Column.fits_present` — missing elements, and those that are not.
-/

namespace Columnar

/-- A text is given by the bytes that encode it. -/
def Push.IsText : Push → Prop
  | .string .utf8 data => Utf8.encodeString (Utf8.lossy data) = data
  | _ => True

variable {p : Push} {k : ElementClass} {vs : List Value}

/-! ### What a push begins -/

/-- A push that begins an element is a value of its class, or opens a container of it. -/
theorem begin_cases (h : p.elementClass? = some k) :
    (∃ v, p.value? = some v ∧ p.unfinished? = none ∧ v.class? = some k) ∨
      ∃ f, p.value? = none ∧ p.unfinished? = some f ∧ f.elementClass = k := by
  cases p with
  | string encoding data =>
    cases encoding <;> exact .inl ⟨_, rfl, rfl, h⟩
  | time kind n unit => exact .inl ⟨_, rfl, rfl, by rw [Value.class?_time]; exact h⟩
  | bool | int | real | complex => exact .inl ⟨_, rfl, rfl, h⟩
  | beginTuple n =>
    refine .inr ⟨_, rfl, rfl, ?_⟩
    cases h
    simp [Unfinished.elementClass]
  | beginList | beginRecord => exact .inr ⟨_, rfl, rfl, Option.some.inj h⟩
  | _ => cases h

theorem seen_begin (vs : List Value) (h : p.elementClass? = some k) :
    seen (vs ++ p.value?.toList) p.unfinished?.toList = seen vs [] ++ [some k] := by
  rcases begin_cases h with ⟨v, hv, hu, hk⟩ | ⟨f, hv, hu, hk⟩
  · simp [hv, hu, seen, hk]
  · simp [hv, hu, seen, hk]

/-- A push into an open container completes it, or leaves one of its class. -/
theorem advance_cases (f : Unfinished) (inner : List Unfinished) (p : Push) :
    (∃ v, assemble (f :: inner) p = (some v, []) ∧ v.class? = some f.elementClass) ∨
      ∃ f' inner', assemble (f :: inner) p = (none, f' :: inner') ∧
        f'.elementClass = f.elementClass := by
  unfold assemble
  split
  · exact .inl ⟨_, rfl, f.class?_value⟩
  · split
    · exact .inr ⟨_, _, rfl, f.elementClass_select p⟩
    · exact .inr ⟨_, _, rfl, f.elementClass_deliver _⟩

theorem seen_advance (vs : List Value) (f : Unfinished) (inner : List Unfinished) (p : Push) :
    seen (vs ++ (assemble (f :: inner) p).1.toList) (assemble (f :: inner) p).2
      = seen vs (f :: inner) := by
  rcases advance_cases f inner p with ⟨v, h, hk⟩ | ⟨f', inner', h, hk⟩
  · simp [h, seen, hk]
  · simp [h, seen, hk]

/-! ### Parts that a push adds to -/

namespace Value

@[simp] theorem present_append (vs ws : List Value) :
    present (vs ++ ws) = present vs ++ present ws := List.filter_append _ _

@[simp] theorem ofClass_append (k : Option ElementClass) (vs ws : List Value) :
    ofClass k (vs ++ ws) = ofClass k vs ++ ofClass k ws := List.filter_append _ _

theorem present_of_class? {v : Value} (h : v.class? = some k) : present [v] = [v] := by
  simp [present, h]

theorem ofClass_self {v : Value} {m : Option ElementClass} (h : v.class? = m) :
    ofClass m [v] = [v] := by
  simp [ofClass, h]

theorem ofClass_of_ne {v : Value} {m : Option ElementClass} (h : v.class? ≠ m) :
    ofClass m [v] = [] := by
  simp [ofClass, h]

theorem class?_eq_none {v : Value} : v.class? = none ↔ v = .null := by
  cases v <;> simp [class?]

theorem length_reduceOption_map_class? (vs : List Value) :
    (vs.map class?).reduceOption.length = (present vs).length := by
  induction vs with
  | nil => rfl
  | cons v vs ih =>
    cases hk : v.class? with
    | none => simpa [hk, present] using ih
    | some k => simpa [hk, present] using ih

end Value

theorem present_begin (h : p.elementClass? = some k) :
    Value.present p.value?.toList = p.value?.toList := by
  rcases begin_cases h with ⟨v, hv, -, hk⟩ | ⟨f, hv, -, -⟩
  · rw [hv]
    exact Value.present_of_class? hk
  · rw [hv]
    rfl

theorem present_advance (f : Unfinished) (inner : List Unfinished) (p : Push) :
    Value.present (assemble (f :: inner) p).1.toList = (assemble (f :: inner) p).1.toList := by
  rcases advance_cases f inner p with ⟨v, h, hk⟩ | ⟨f', inner', h, -⟩
  · rw [h]
    exact Value.present_of_class? hk
  · rw [h]
    rfl

/-- What a push begins belongs to its class, -/
theorem ofClass_begin (h : p.elementClass? = some k) :
    Value.ofClass (some k) p.value?.toList = p.value?.toList ∧
      stackOf (some k) p.unfinished?.toList = p.unfinished?.toList := by
  rcases begin_cases h with ⟨v, hv, hu, hk⟩ | ⟨f, hv, hu, hk⟩
  · rw [hv, hu]
    exact ⟨Value.ofClass_self hk, rfl⟩
  · rw [hv, hu]
    exact ⟨rfl, if_pos (by rw [hk])⟩

/-- and to no other one. -/
theorem ofClass_begin_of_ne {m : Option ElementClass} (h : p.elementClass? = some k)
    (hm : some k ≠ m) : Value.ofClass m p.value?.toList = [] ∧
      stackOf m p.unfinished?.toList = [] := by
  rcases begin_cases h with ⟨v, hv, hu, hk⟩ | ⟨f, hv, hu, hk⟩
  · rw [hv, hu]
    exact ⟨Value.ofClass_of_ne (by rwa [hk]), rfl⟩
  · rw [hv, hu]
    exact ⟨rfl, if_neg (by rwa [hk])⟩

/-- What a push completes or leaves open belongs to the class of the open container, -/
theorem ofClass_advance (f : Unfinished) (inner : List Unfinished) (p : Push) :
    Value.ofClass (some f.elementClass) (assemble (f :: inner) p).1.toList
        = (assemble (f :: inner) p).1.toList ∧
      stackOf (some f.elementClass) (assemble (f :: inner) p).2 = (assemble (f :: inner) p).2 := by
  rcases advance_cases f inner p with ⟨v, h, hk⟩ | ⟨f', inner', h, hk⟩
  · rw [h]
    exact ⟨Value.ofClass_self hk, rfl⟩
  · rw [h]
    exact ⟨rfl, if_pos (by rw [hk])⟩

/-- and to no other one. -/
theorem ofClass_advance_of_ne {m : Option ElementClass} (f : Unfinished)
    (inner : List Unfinished) (p : Push) (hm : some f.elementClass ≠ m) :
    Value.ofClass m (assemble (f :: inner) p).1.toList = [] ∧
      stackOf m (assemble (f :: inner) p).2 = [] := by
  rcases advance_cases f inner p with ⟨v, h, hk⟩ | ⟨f', inner', h, hk⟩
  · rw [h]
    exact ⟨Value.ofClass_of_ne (by rwa [hk]), rfl⟩
  · rw [h]
    exact ⟨rfl, if_neg (by rwa [hk])⟩

namespace Column

variable {o : Options} {fresh : Prop} {c : Column} {stack : List Unfinished}

/-! ### One class -/

theorem OfClass.advance {f : Unfinished} {inner : List Unfinished}
    (h : OfClass fresh k vs (f :: inner)) (p : Push) :
    OfClass fresh k (vs ++ (assemble (f :: inner) p).1.toList) (assemble (f :: inner) p).2 where
  all := by rw [seen_advance]; exact h.all
  ne_nil := by rw [seen_advance]; exact h.ne_nil

theorem ofClass_begin_append (hvs : ∀ m ∈ seen vs [], m = some k)
    (h : p.elementClass? = some k) :
    OfClass fresh k (vs ++ p.value?.toList) p.unfinished?.toList where
  all m hm := by
    rw [seen_begin vs h, List.mem_append, List.mem_singleton] at hm
    exact hm.elim (hvs m) id
  ne_nil _ := by
    rw [seen_begin vs h]
    exact List.append_ne_nil_of_right_ne_nil _ (List.cons_ne_nil _ _)

/-- The class of a column is that of everything it holds. -/
theorem Fits.all_class (h : Fits o fresh c vs stack) (hk : c.class? = some k) :
    ∀ m ∈ seen vs stack, m = some k := by
  have hmap : ∀ {vs : List Value}, (∀ v ∈ vs, v.class? = some k) →
      ∀ m ∈ seen vs [], m = some k := by
    intro vs h m hm
    obtain ⟨v, hv, rfl⟩ := List.mem_map.mp hm
    exact h v hv
  cases h with
  | unknown | option | union => cases hk
  | bool hvs | int64 hvs =>
    cases hk
    apply hmap
    intro v hv
    rw [hvs] at hv
    obtain ⟨x, -, rfl⟩ := List.mem_map.mp hv
    rfl
  | time hvs =>
    cases hk
    apply hmap
    intro v hv
    rw [hvs] at hv
    obtain ⟨n, -, rfl⟩ := List.mem_map.mp hv
    exact Value.class?_time _ _ _
  | float64 hvs =>
    cases hk
    apply hmap
    intro v hv
    obtain ⟨x, hx⟩ := Value.exists_of_map_eq_map_some hvs hv
    cases v <;> first | rfl | cases hx
  | complex128 hvs =>
    cases hk
    apply hmap
    intro v hv
    obtain ⟨z, hz⟩ := Value.exists_of_map_eq_map_some hvs hv
    cases v <;> first | rfl | cases hz
  | string hoc | list hoc | list_open hoc | tuple hoc | tuple_open hoc | record hoc
  | record_open hoc =>
    cases hk
    exact hoc.all

theorem class?_mem_seen {v : Value} (hv : v ∈ vs) (stack : List Unfinished) :
    v.class? ∈ seen vs stack := by
  have hmem : v.class? ∈ vs.map Value.class? := List.mem_map_of_mem hv
  cases stack with
  | nil => exact hmem
  | cons f inner => exact List.mem_append_left _ hmem

/-- Only unknown and optional columns hold missing values. -/
theorem Fits.isSome_of_kind (h : Fits o fresh c vs stack) (hs : c.Sound) (hu : c.kind ≠ .unknown)
    (ho : c.kind ≠ .option) : ∀ m ∈ seen vs stack, m.isSome = true := by
  intro m hm
  cases hk : c.class? with
  | some k => rw [h.all_class hk m hm]; rfl
  | none =>
    cases h with
    | unknown | option => contradiction
    | union _ _ hmem =>
      obtain ⟨d, hd, rfl⟩ := List.mem_map.mp (hmem m hm)
      exact hs.node.classes d hd
    | _ => cases hk

theorem present_eq_self (h : ∀ m ∈ seen vs stack, m.isSome = true) : Value.present vs = vs :=
  List.filter_eq_self.mpr fun _ hv => h _ (class?_mem_seen hv stack)

theorem Fits.exists_cons (h : Fits o fresh c vs stack) (ha : c.isActive = true) :
    ∃ f inner, stack = f :: inner := by
  rw [h.isActive] at ha
  cases stack with
  | nil => cases ha
  | cons f inner => exact ⟨f, inner, rfl⟩

/-- What a column takes concerns a container that is under way in it, or begins an element. -/
theorem Fits.inner_or_begins {c' : Column} (h : Fits o fresh c vs stack) (ht : Takes o c p c') :
    stack ≠ [] ∨ p = .null ∨ ∃ k, p.elementClass? = some k := by
  cases ha : c.isActive with
  | true =>
    obtain ⟨f, inner, rfl⟩ := h.exists_cons ha
    exact .inl (List.cons_ne_nil _ _)
  | false => exact .inr (ht.begins ha)

/-- A column with a class is not empty if it was never cleared. -/
theorem Fits.seen_ne_nil (h : Fits o fresh c vs stack) (hk : c.class? = some k) (hf : fresh) :
    seen vs stack ≠ [] := by
  have hmem : ∀ {vs : List Value}, vs ≠ [] → seen vs [] ≠ [] := by
    intro vs hvs
    simpa [seen] using hvs
  cases h with
  | unknown | option | union => cases hk
  | bool _ hne | int64 _ hne | time _ hne => exact hmem (hne hf)
  | float64 _ hne | complex128 _ hne =>
    obtain ⟨x, hx⟩ := hne hf
    exact hmem (List.ne_nil_of_mem hx)
  | string hoc | list hoc | list_open hoc | tuple hoc | tuple_open hoc | record hoc
  | record_open hoc => exact hoc.ne_nil hf

/-! ### New columns -/

/-- No slot of a new tuple has a value. -/
theorem join_getElem?_replicate (n i : Nat) :
    ((List.replicate n none)[i]? : Option (Option Value)).join = none := by
  rw [List.getElem?_replicate]
  split <;> rfl

/-- A new column holds what the push begins. -/
theorem fits_first (hp : p.elementClass? = some k) (htext : p.IsText) :
    Fits o fresh (first o p) p.value?.toList p.unfinished?.toList := by
  have hk : OfClass fresh k ([] ++ p.value?.toList) p.unfinished?.toList :=
    ofClass_begin_append (List.forall_mem_nil _) hp
  rw [List.nil_append] at hk
  cases p with
  | bool b => exact .bool rfl fun _ => List.cons_ne_nil _ _
  | int n => exact .int64 rfl fun _ => List.cons_ne_nil _ _
  | real x => exact .float64 rfl fun _ => ⟨x, List.mem_singleton_self _⟩
  | complex z => exact .complex128 rfl fun _ => ⟨z, List.mem_singleton_self _⟩
  | time kind n unit => exact .time rfl fun _ => List.cons_ne_nil _ _
  | string encoding data =>
    cases hp
    cases encoding with
    | bytes =>
      exact .string hk (by simp [Push.value?, offsetsFrom, Value.data])
        (by simp [Push.value?, Value.data])
    | utf8 =>
      -- the text is kept as the bytes it was given by
      have hdata : Value.data (.string (Utf8.lossy data)) = data := htext
      exact .string hk (by simp [Push.value?, offsetsFrom, hdata]) (by simp [Push.value?, hdata])
  | beginList =>
    cases hp
    exact .list_open hk rfl (.unknown 0)
  | beginTuple n =>
    cases hp
    refine .tuple_open (by rwa [List.length_replicate]) rfl (fun _ => rfl) ?_
    intro i c hi
    rw [List.eq_of_mem_replicate (List.mem_of_getElem? hi)]
    rw [join_getElem?_replicate]
    exact .unknown 0
  | beginRecord name =>
    cases hp
    obtain ⟨fields, settled, declared, he, hu, hkeys⟩ := exists_first_beginRecord o name
    rw [he]
    refine .record_open hk rfl ⟨List.forall_mem_nil _, ?_⟩ (List.forall_mem_nil _)
      List.nodup_nil rfl (fun _ => rfl) (by simp) ?_
    · intro _
      simp [hkeys, Push.value?]
    · intro key c hmem
      rw [hu c (List.mem_map_of_mem hmem)]
      exact .unknown 0
  | _ => cases hp

/-! ### Elements of the own class -/

/-- A column of integers after a number, which may widen it. -/
theorem fits_accept_int64 {values : Array Int64} (hp : p.elementClass? = some .number)
    (hvs : vs = values.toList.map .int) :
    Fits o fresh ((Column.int64 values).accept p) (vs ++ p.value?.toList)
      p.unfinished?.toList := by
  cases p with
  | int n =>
    exact .int64 (by simp [hvs, Push.value?]) fun _ =>
      List.append_ne_nil_of_right_ne_nil _ (List.cons_ne_nil _ _)
  | real x =>
    exact .float64 (by simp [hvs, Push.value?, Value.toReal?, Function.comp_def])
      fun _ => ⟨x, by simp [Push.value?]⟩
  | complex z =>
    exact .complex128 (by simp [hvs, Push.value?, Value.toComplex?, Function.comp_def])
      fun _ => ⟨z, by simp [Push.value?]⟩
  | _ => cases hp

/-- A column of reals after a number, which may widen it. -/
theorem fits_accept_float64 {values : Array Binary64} (hp : p.elementClass? = some .number)
    (hvs : vs.map Value.toReal? = values.toList.map some)
    (hreal : fresh → ∃ x, Value.real x ∈ vs) :
    Fits o fresh ((Column.float64 values).accept p) (vs ++ p.value?.toList)
      p.unfinished?.toList := by
  cases p with
  | int n =>
    refine .float64 (by simp [hvs, Push.value?, Value.toReal?]) ?_
    intro hf
    obtain ⟨x, hx⟩ := hreal hf
    exact ⟨x, List.mem_append_left _ hx⟩
  | real x =>
    exact .float64 (by simp [hvs, Push.value?, Value.toReal?])
      fun _ => ⟨x, by simp [Push.value?]⟩
  | complex z =>
    have hwiden := Value.map_toComplex?_of_reals hvs
    exact .complex128 (by simp [hwiden, Push.value?, Value.toComplex?, Function.comp_def])
      fun _ => ⟨z, by simp [Push.value?]⟩
  | _ => cases hp

/-- A column of complex numbers after a number. -/
theorem fits_accept_complex128 {values : Array Complex} (hp : p.elementClass? = some .number)
    (hvs : vs.map Value.toComplex? = values.toList.map some)
    (hcomplex : fresh → ∃ z, Value.complex z ∈ vs) :
    Fits o fresh ((Column.complex128 values).accept p) (vs ++ p.value?.toList)
      p.unfinished?.toList := by
  have hkeep : ∀ v : Value, fresh → ∃ z, Value.complex z ∈ vs ++ [v] := fun v hf => by
    obtain ⟨z, hz⟩ := hcomplex hf
    exact ⟨z, List.mem_append_left _ hz⟩
  cases p with
  | int n => exact .complex128 (by simp [hvs, Push.value?, Value.toComplex?]) (hkeep _)
  | real x => exact .complex128 (by simp [hvs, Push.value?, Value.toComplex?]) (hkeep _)
  | complex z => exact .complex128 (by simp [hvs, Push.value?, Value.toComplex?]) (hkeep _)
  | _ => cases hp

/-- A column of strings after another one: the bytes are put behind those that are there. -/
theorem fits_accept_string {encoding : Encoding} {offsets : Array Nat} {data : Array UInt8}
    {bytes : List UInt8} (htext : (Push.string encoding bytes).IsText)
    (hoc : OfClass fresh (.string encoding) (vs ++ (Push.string encoding bytes).value?.toList) [])
    (hoffsets : offsets.toList = offsetsFrom 0 (vs.map fun v => v.data.length))
    (hdata : data.toList = vs.flatMap Value.data) :
    Fits o fresh ((Column.string encoding offsets data).accept (.string encoding bytes))
      (vs ++ (Push.string encoding bytes).value?.toList) [] := by
  obtain ⟨v, hv, hbytes⟩ :
      ∃ v, (Push.string encoding bytes).value? = some v ∧ v.data = bytes := by
    cases encoding with
    | utf8 => exact ⟨_, rfl, htext⟩
    | bytes => exact ⟨_, rfl, rfl⟩
  rw [hv] at hoc ⊢
  have hsize : data.size = (vs.map fun v => v.data.length).sum := by
    rw [← Array.length_toList, hdata, List.length_flatMap]
  refine .string hoc ?_ ?_
  · rw [Array.toList_push, hoffsets, Option.toList_some, List.map_append, List.map_singleton,
      offsetsFrom_concat, hbytes, ← Array.length_toList, Array.toList_appendList,
      List.length_append, Array.length_toList, hsize, Nat.zero_add]
  · rw [Array.toList_appendList, hdata]
    simp [hbytes]

/-- **A column of a class holds what a push of that class adds to it.** -/
theorem fits_accept (hp : p.elementClass? = some k) (htext : p.IsText) (hk : c.class? = some k)
    (h : Fits o fresh c vs []) :
    Fits o fresh (c.accept p) (vs ++ p.value?.toList) p.unfinished?.toList := by
  have hoc : OfClass fresh k (vs ++ p.value?.toList) p.unfinished?.toList :=
    ofClass_begin_append (h.all_class hk) hp
  have hne : ∀ v : Value, vs ++ [v] ≠ [] := fun v =>
    List.append_ne_nil_of_right_ne_nil _ (List.cons_ne_nil _ _)
  cases h with
  | unknown | option | union => cases hk
  | bool hvs =>
    cases p with
    | bool b => exact .bool (by simp [hvs, Push.value?]) fun _ => hne _
    | _ => cases hp <;> cases hk
  | int64 hvs =>
    cases hk
    exact fits_accept_int64 hp hvs
  | float64 hvs hreal =>
    cases hk
    exact fits_accept_float64 hp hvs hreal
  | complex128 hvs hcomplex =>
    cases hk
    exact fits_accept_complex128 hp hvs hcomplex
  | time hvs =>
    cases p with
    | time kind n unit =>
      cases hp
      cases hk
      exact .time (by simp [hvs, Push.value?]) fun _ => hne _
    | _ => cases hp <;> cases hk
  | string _ hoffsets hdata =>
    cases p with
    | string encoding bytes =>
      cases hp
      cases hk
      exact fits_accept_string htext hoc hoffsets hdata
    | _ => cases hp <;> cases hk
  | list _ hoffsets hc =>
    cases p with
    | beginList =>
      cases hp
      rw [show vs ++ Push.beginList.value?.toList = vs from List.append_nil _] at hoc ⊢
      exact .list_open hoc hoffsets (by rwa [List.append_nil])
    | _ => cases hp <;> cases hk
  | @tuple slots n _ _ hn hc =>
    cases p with
    | beginTuple arity =>
      cases hp
      cases hk
      rw [show vs ++ (Push.beginTuple slots.length).value?.toList = vs from
        List.append_nil _] at hoc ⊢
      refine .tuple_open hoc hn (fun _ => rfl) ?_
      intro i c hi
      rw [join_getElem?_replicate, Option.toList_none, List.append_nil]
      exact hc i c hi
    | _ => cases hp <;> cases hk
  | @record name fields n settled declared _ _ hn hkeys hdistinct hc =>
    cases p with
    | beginRecord name' =>
      cases hp
      cases hk
      rw [show vs ++ (Push.beginRecord name).value?.toList = vs from List.append_nil _] at hoc ⊢
      refine .record_open hoc hn (by rwa [List.map_nil, List.append_nil]) hdistinct
        List.nodup_nil rfl (fun _ => rfl) (by simp) ?_
      intro key c hmem
      rw [show (lookup [] key : Option (Option Value)).join = none from rfl, Option.toList_none,
        List.append_nil]
      exact hc key c hmem
    | _ => cases hp <;> cases hk

/-! ### Missing elements -/

theorem placesFrom_of_isSome {l : List (Option ElementClass)} (h : ∀ m ∈ l, m.isSome = true)
    (n : Nat) : placesFrom n l = (List.range' n l.length).map some := by
  induction l generalizing n with
  | nil => rfl
  | cons m rest ih =>
    cases m with
    | none => cases h none List.mem_cons_self
    | some m =>
      rw [placesFrom, ih fun m hm => h m (List.mem_cons_of_mem _ hm), List.length_cons,
        List.range'_succ, List.map_cons]

/-- The first missing element of a column. -/
theorem fits_first_null (hs : c.Sound) (hu : c.kind ≠ .unknown) (ho : c.kind ≠ .option)
    (h : Fits o fresh c vs []) :
    Fits o fresh (.option ((allPresent c.length).push none) c) (vs ++ [.null]) [] := by
  have hsome := h.isSome_of_kind hs hu ho
  refine .option ?_ (fun _ => by simp) ?_
  · have hseen : seen (vs ++ [.null]) [] = seen vs [] ++ [none] := by simp [seen, Value.class?]
    rw [hseen, placesFrom_append, placesFrom_of_isSome hsome, Array.toList_push, allPresent,
      Array.toList_map, Array.toList_range, h.length, length_seen_nil, List.range_eq_range']
    rfl
  · rw [Value.present_append, present_eq_self hsome]
    simpa [Value.present, Value.class?] using h

/-- One more missing element. -/
theorem fits_appendNull (hs : c.Sound) (h : Fits o fresh c vs []) :
    Fits o fresh c.appendNull (vs ++ [.null]) [] := by
  rcases kind_cases c with ⟨n, rfl⟩ | ⟨index, content, rfl⟩ | ⟨hu, ho⟩
  · cases h
    rw [← List.replicate_succ']
    exact .unknown (n + 1)
  · cases h with
    | option hindex hnull hc =>
      refine .option ?_ (fun _ => by simp) ?_
      · rw [Array.toList_push, hindex]
        simp [seen, placesFrom_append, placesFrom, Value.class?]
      · rw [Value.present_append]
        simpa [Value.present, Value.class?] using hc
  · rw [appendNull_of_kind hu ho]
    exact fits_first_null hs hu ho h

/-! ### Optional columns -/

/-- One more element that is not missing. -/
theorem fits_present {index : Array (Option Nat)} {content content' : Column}
    (hp : p.elementClass? = some k) (h : Fits o fresh (.option index content) vs [])
    (hc' : Fits o fresh content (Value.present vs) [] →
      Fits o fresh content' (Value.present vs ++ p.value?.toList) p.unfinished?.toList) :
    Fits o fresh (.option (index.push (some content.length)) content')
      (vs ++ p.value?.toList) p.unfinished?.toList := by
  cases h with
  | option hindex hnull hc =>
    refine .option ?_ (fun hf => List.mem_append_left _ (hnull hf)) ?_
    · rw [Array.toList_push, hindex, seen_begin vs hp, placesFrom_append, hc.length,
        seen, Value.length_reduceOption_map_class?, Nat.zero_add]
      rfl
    · rw [Value.present_append, present_begin hp]
      exact hc' hc

/-- A column that begins with missing elements. -/
theorem fits_afterNulls (hp : p.elementClass? = some k) (htext : p.IsText) (n : Nat) :
    Fits o fresh (afterNulls n (first o p)) (List.replicate n .null ++ p.value?.toList)
      p.unfinished?.toList := by
  unfold afterNulls
  split
  · next hn =>
    subst hn
    exact fits_first hp htext
  · next hn =>
    have hnulls : Value.present (List.replicate n .null) = [] := by
      simp [Value.present, Value.class?]
    refine .option ?_ ?_ ?_
    · have hseen : seen (List.replicate n .null) [] = List.replicate n none := List.map_replicate
      have hnone : (seen (List.replicate n .null) []).reduceOption.length = 0 := by
        rw [seen, Value.length_reduceOption_map_class?, hnulls]
        rfl
      rw [seen_begin _ hp, placesFrom_append, hnone, hseen, placesFrom_replicate_none]
      simp [placesFrom]
    · intro _
      exact List.mem_append_left _ (List.mem_replicate.mpr ⟨hn, rfl⟩)
    · rw [Value.present_append, hnulls, present_begin hp, List.nil_append]
      exact fits_first hp htext

end Column

end Columnar
