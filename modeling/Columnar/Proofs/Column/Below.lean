import Columnar.Proofs.Column.Reread
import Columnar.Proofs.Form.Below

/-!
# Pushes only widen

A push leaves the form of a column as it was, or makes it more general, whatever kind of column
it is and however deep the push goes: numbers are widened, a union is put around a column as its
first kind, an option around a column as its content, and fields and kinds are added behind
those that are there.

## Main definitions

* `Column.Under` — the layout of a column is below that of another one, wherever the two
  stand.

## Main results

* `Column.under_refl` — the number and the annotations of a node do not count.
* `Column.Takes.under` — **a push that is taken widens the form.**
-/

namespace Columnar.Column

open List (Forall₂)

/-- The layout of a column is below that of another one, whatever the numbers and the annotations
of the two are. -/
def Under (c c' : Column) : Prop :=
  ∀ (partition : String) (ps ps' : Parameters) (next next' : Nat), Plain ps → Plain ps' →
    (c.layout partition ps next).form.Below (c'.layout partition ps' next').form

variable {o : Options} {p : Push} {c c' : Column} {cs ds more : List Column}

theorem below_layouts (h : Forall₂ Under cs ds) (partition : String) (next next' : Nat) :
    Forall₂ Form.Below (layouts partition next cs).forms (layouts partition next' ds).forms := by
  induction h generalizing next next' with
  | nil => exact .nil
  | cons hc _ ih => exact .cons (hc _ _ _ _ _ plain_nil plain_nil) (ih _ _)

/-- Further columns are laid out behind those that were there. -/
theorem exists_forms_append (partition : String) (cs more : List Column) (next : Nat) :
    ∃ forms, (layouts partition next (cs ++ more)).forms
      = (layouts partition next cs).forms ++ forms := by
  induction cs generalizing next with
  | nil => exact ⟨_, rfl⟩
  | cons c cs ih =>
    obtain ⟨forms, hforms⟩ := ih (c.layout partition [] next).next
    exact ⟨forms, congrArg (List.cons _) hforms⟩

/-! ### Nodes -/

theorem under_empty (c : Column) : Under (.unknown 0) c :=
  fun _ _ _ _ _ _ _ => .empty _ _

theorem under_nulls (n m : Nat) : Under (.unknown (n + 1)) (.unknown (m + 1)) :=
  fun _ _ _ _ _ _ _ => .option (.empty _ _)

theorem under_nulls_option (n : Nat) (index : Array (Option Nat)) (c : Column) :
    Under (.unknown (n + 1)) (.option index c) :=
  fun _ _ _ _ _ _ _ => .option (.empty _ _)

theorem under_flat {primitive primitive' : Primitive} {b b' : Buffer}
    (h : primitive.WidensTo primitive')
    (hc : ∀ partition ps next, c.layout partition ps next
      = flatLayout partition ps next primitive b)
    (hc' : ∀ partition ps next, c'.layout partition ps next
      = flatLayout partition ps next primitive' b') : Under c c' := by
  intro partition ps ps' next next' _ _
  rw [hc, hc']
  exact .flat h

theorem under_option {index index' : Array (Option Nat)} (h : Under c c') :
    Under (.option index c) (.option index' c') :=
  fun _ _ _ _ _ _ _ => .option (h _ _ _ _ _ plain_nil plain_nil)

/-- What may be missing is above what is there. -/
theorem under_inOption {index : Array (Option Nat)} (h : Under c c') :
    Under c (.option index c') :=
  fun _ _ _ _ _ hps _ => .inOption (h _ _ _ _ _ hps plain_nil)

theorem under_string {encoding : Encoding} {offsets offsets' : Array Nat}
    {data data' : Array UInt8} :
    Under (.string encoding offsets data) (.string encoding offsets' data') := by
  intro partition ps ps' next next' _ _
  refine .list ?_ (.flat (.same _))
  rw [Form.stringKind?_list, Form.stringKind?_list, lookup_assign_self, lookup_assign_self]

theorem under_list {offsets offsets' : Array Nat} {isOpen isOpen' : Bool} (h : Under c c') :
    Under (.list offsets c isOpen) (.list offsets' c' isOpen') := by
  intro partition ps ps' next next' hps hps'
  refine .list ?_ (h _ _ _ _ _ plain_nil plain_nil)
  rw [Form.stringKind?_list, Form.stringKind?_list, hps.array, hps'.array]

theorem under_tuple {n m : Nat} {filling filling' : Filling} (h : Forall₂ Under cs ds) :
    Under (.tuple cs n filling) (.tuple ds m filling') := by
  intro partition ps ps' next next' hps hps'
  refine .tuple ?_ (below_layouts h _ _ _)
  change (lookup ps recordParameter).bind Document.asString?
    = (lookup ps' recordParameter).bind Document.asString?
  rw [hps.record, hps'.record]

/-- Records with further fields behind those that were there. -/
theorem under_record {name : Option String} {fields fields' : List (String × Column)}
    {keys : List String} {n m : Nat} {filling filling' : Filling}
    {settled settled' declared declared' : Bool}
    (hkeys : fields'.map Prod.fst = fields.map Prod.fst ++ keys)
    (hfields : columnsOf fields' = ds ++ more) (h : Forall₂ Under (columnsOf fields) ds) :
    Under (.record name fields n filling settled declared)
      (.record name fields' m filling' settled' declared') := by
  intro partition ps ps' next next' hps hps'
  obtain ⟨forms, hforms⟩ := exists_forms_append partition ds more (next' + 1)
  rw [layout, layout, fieldLayouts_eq, fieldLayouts_eq, hfields, hforms, hkeys]
  refine .record ?_ (below_layouts h _ _ _)
  exact (recordName hps name).trans (recordName hps' name).symm

/-- Unions with further kinds behind those that were there. -/
theorem under_union {es : List Column} {tags tags' index index' : Array Nat}
    {current current' : Option Nat} (h : Forall₂ Under cs ds) (hmore : es = ds ++ more) :
    Under (.union tags index cs current) (.union tags' index' es current') := by
  intro partition ps ps' next next' _ _
  obtain ⟨forms, hforms⟩ := exists_forms_append partition ds more (next' + 1)
  rw [layout, layout, hmore, hforms]
  exact .union (below_layouts h _ _ _)

/-- The first kind of a union. -/
theorem under_inUnion {tags index : Array Nat} {current : Option Nat} (h : Under c c')
    (cs : List Column) : Under c (.union tags index (c' :: cs) current) := by
  intro partition ps ps' next next' hps _
  rw [layout, layouts]
  exact .inUnion (h _ _ _ _ _ hps plain_nil)

/-- **The number and the annotations of a node do not count.** -/
theorem under_refl (c : Column) : Under c c := by
  induction c using Column.induct with
  | node c ih =>
    have hall : ∀ {cs : List Column}, (∀ d ∈ cs, Under d d) → Forall₂ Under cs cs :=
      fun h => List.forall₂_same.mpr h
    cases c with
    | unknown n =>
      cases n with
      | zero => exact under_empty _
      | succ n => exact under_nulls n n
    | bool | int64 | float64 | complex128 | time =>
      exact under_flat (.same _) (fun _ _ _ => rfl) (fun _ _ _ => rfl)
    | string encoding offsets data => exact under_string
    | option index content => exact under_option (ih content (List.mem_singleton_self _))
    | list offsets content isOpen => exact under_list (ih content (List.mem_singleton_self _))
    | tuple slots n filling => exact under_tuple (hall ih)
    | record name fields n filling settled declared =>
      exact under_record (List.append_nil _).symm (List.append_nil _).symm (hall ih)
    | union tags index children current =>
      exact under_union (hall ih) (List.append_nil _).symm

/-! ### Pushes -/

theorem forall₂_under_refl (cs : List Column) : Forall₂ Under cs cs :=
  List.forall₂_same.mpr fun c _ => under_refl c

theorem forall₂_under_set {i : Nat} (hc : cs[i]? = some c) (h : Under c c') :
    Forall₂ Under cs (cs.set i c') := by
  induction cs generalizing i with
  | nil => cases hc
  | cons d cs ih =>
    cases i with
    | zero =>
      cases hc
      exact .cons h (forall₂_under_refl cs)
    | succ i => exact .cons (under_refl d) (ih hc)

/-- An element of the own class widens numbers at most. -/
theorem under_accept {k : ElementClass} (hp : p.elementClass? = some k) (hk : c.class? = some k) :
    Under c (c.accept p) := by
  cases c with
  | unknown | option | union => cases hk
  | bool vs =>
    cases hk
    cases p with
    | bool => exact under_flat (.same _) (fun _ _ _ => rfl) (fun _ _ _ => rfl)
    | _ => cases hp
  | int64 vs =>
    cases hk
    cases p with
    | int => exact under_flat (.same _) (fun _ _ _ => rfl) (fun _ _ _ => rfl)
    | real => exact under_flat .int64_float64 (fun _ _ _ => rfl) (fun _ _ _ => rfl)
    | complex => exact under_flat .int64_complex128 (fun _ _ _ => rfl) (fun _ _ _ => rfl)
    | _ => cases hp
  | float64 vs =>
    cases hk
    cases p with
    | int | real => exact under_flat (.same _) (fun _ _ _ => rfl) (fun _ _ _ => rfl)
    | complex => exact under_flat .float64_complex128 (fun _ _ _ => rfl) (fun _ _ _ => rfl)
    | _ => cases hp
  | complex128 vs =>
    cases hk
    cases p with
    | int | real | complex => exact under_flat (.same _) (fun _ _ _ => rfl) (fun _ _ _ => rfl)
    | _ => cases hp
  | time kind unit vs =>
    cases hk
    cases p with
    | time => exact under_flat (.same _) (fun _ _ _ => rfl) (fun _ _ _ => rfl)
    | _ => cases hp
  | string encoding offsets data =>
    cases hk
    cases p with
    | string => exact under_string
    | _ => cases hp
  | list offsets content isOpen =>
    cases hk
    cases p with
    | beginList => exact under_list (under_refl content)
    | _ => cases hp
  | tuple slots n filling =>
    cases p with
    | beginTuple => exact under_tuple (forall₂_under_refl slots)
    | _ => exact under_refl _
  | record name fields n filling settled declared =>
    cases p with
    | beginRecord =>
      exact under_record (List.append_nil _).symm (List.append_nil _).symm
        (forall₂_under_refl _)
    | _ => exact under_refl _

/-- A slot that is filled may be missing at most. -/
theorem under_fillSlot (row : Nat) (c : Column) : Under c (fillSlot row c) := by
  rcases fillSlot_eq row c with he | ⟨he, -⟩
  · rw [he]
    exact under_refl c
  · rw [he]
    rcases kind_cases c with ⟨n, rfl⟩ | ⟨index, content, rfl⟩ | ⟨hu, ho⟩
    · cases n with
      | zero => exact under_empty _
      | succ n => exact under_nulls n (n + 1)
    · exact under_option (under_refl content)
    · rw [appendNull_of_kind hu ho]
      exact under_inOption (under_refl c)

theorem forall₂_under_fillSlots (row : Nat) (cs : List Column) :
    Forall₂ Under cs (fillSlots row cs) :=
  List.forall₂_map_right_iff.mpr (List.forall₂_same.mpr fun c _ => under_fillSlot row c)

theorem under_afterNulls (n : Nat) (c : Column) : Under (.unknown n) (afterNulls n c) := by
  cases n with
  | zero => exact under_empty _
  | succ n => exact under_nulls_option n _ c

/-- **A push that is taken widens the form**, at the node where it arrives and at every node on
its way. -/
theorem Takes.under (h : Takes o c p c') : Under c c' := by
  induction h with
  | unknown_null n =>
    cases n with
    | zero => exact under_empty _
    | succ n => exact under_nulls n (n + 1)
  | unknown_first n => exact under_afterNulls n _
  | option_null => exact under_option (under_refl _)
  | option_present _ _ _ ih | option_open _ _ ih => exact under_option ih
  | first_null => exact under_inOption (under_refl _)
  | own _ hp hk => exact under_accept hp hk
  | other => exact under_inUnion (under_refl _) _
  | list_end => exact under_list (under_refl _)
  | list_item _ ih => exact under_list ih
  | tuple_index => exact under_tuple (forall₂_under_refl _)
  | tuple_end => exact under_tuple (forall₂_under_fillSlots _ _)
  | tuple_slot hi _ _ ih => exact under_tuple (forall₂_under_set hi ih)
  | record_field => exact under_refl _
  | record_new =>
    exact under_record List.map_append (columnsOf_concat _ _ _) (forall₂_under_refl _)
  | record_end =>
    exact under_record ((keys_fillFields _ _).trans (List.append_nil _).symm)
      ((columnsOf_fillFields _ _).trans (List.append_nil _).symm) (forall₂_under_fillSlots _ _)
  | record_slot hi _ _ ih =>
    exact under_record ((keys_setField _ _ _).trans (List.append_nil _).symm)
      ((columnsOf_setField _ _ _).trans (List.append_nil _).symm) (forall₂_under_set hi ih)
  | union_own _ _ hi _ ih | union_open hi _ ih =>
    exact under_union (forall₂_under_set hi ih) (List.append_nil _).symm
  | union_new => exact under_union (forall₂_under_refl _) rfl

end Columnar.Column
