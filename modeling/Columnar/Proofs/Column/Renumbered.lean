import Columnar.Proofs.Column.Yields

/-!
# Layouts under other numbers

The nodes of a column are numbered from some number on, and the numbers are part of the names under
which the buffers are stored.  What is read of a layout does not depend on the numbers: every node
finds its buffers under its own names, and they are the same buffers.  Only errors name their node.

## Main definitions

* `Form.Gives` — what one reading gives, another one gives.

## Main results

* `Form.Gives.bind` — step by step.
* `Column.gives_layout` — **a layout under other numbers gives the same values.**
-/

namespace Columnar

namespace Form

/-- What one reading gives, another one gives; errors may differ. -/
def Gives {α : Type} (x y : Reading α) : Prop := ∀ a, x = .ok a → y = .ok a

variable {α β : Type} {x y : Reading α} {table table' : Buffers} {partition : String} {f f' : Form}

theorem Gives.refl (x : Reading α) : Gives x x := fun _ h => h

theorem Gives.fail (cause : ReadCause) : Gives (f.fail cause) y := nofun

theorem Gives.bind {next next' : α → Reading β} (h : Gives x y)
    (hnext : ∀ a, Gives (next a) (next' a)) : Gives (x >>= next) (y >>= next') := by
  intro b hb
  cases hx : x with
  | error e =>
    rw [hx] at hb
    cases hb
  | ok a =>
    rw [hx] at hb
    rw [h a hx]
    exact hnext a b hb

theorem Gives.map {g : α → β} (h : Gives x y) : Gives (x.map g) (y.map g) := by
  intro b hb
  cases hx : x with
  | error e =>
    rw [hx] at hb
    cases hb
  | ok a =>
    rw [hx] at hb
    rw [h a hx]
    exact hb

theorem Gives.mapM {read read' : α → Reading β} (h : ∀ a, Gives (read a) (read' a)) (l : List α) :
    Gives (l.mapM read) (l.mapM read') := by
  induction l with
  | nil => exact .refl _
  | cons a l ih =>
    rw [List.mapM_cons, List.mapM_cons]
    exact (h a).bind fun b => ih.bind fun bs => .refl _

/-! ### One node -/

/-- A buffer is stored under the names of two nodes. -/
def StoredAt (table table' : Buffers) (partition : String) (f f' : Form) (role : String) : Prop :=
  ∃ key key' b, f.key? = some key ∧ f'.key? = some key' ∧
    lookup table (bufferName partition key role) = some b ∧
    lookup table' (bufferName partition key' role) = some b

theorem gives_buffer {role : String} (h : StoredAt table table' partition f f' role)
    (elements : Elements α) (n : Nat) :
    Gives (f.buffer table partition role elements n)
      (f'.buffer table' partition role elements n) := by
  obtain ⟨key, key', b, hkey, hkey', hb, hb'⟩ := h
  unfold buffer
  simp only [hkey, hkey', hb, hb']
  cases elements.ofBuffer? b with
  | none => exact .fail _
  | some data =>
    dsimp only
    split
    · exact .refl _
    · exact .fail _

theorem gives_readFlat (h : StoredAt table table' partition f f' "data") (primitive : Primitive)
    (n : Nat) : Gives (f.readFlat table partition primitive n)
      (f'.readFlat table' partition primitive n) := by
  cases primitive <;> exact (gives_buffer h _ n).map

theorem gives_readOffsets (h : StoredAt table table' partition f f' "offsets") (n : Nat) :
    Gives (f.readOffsets table partition n) (f'.readOffsets table' partition n) := by
  refine (gives_buffer h _ _).bind fun offsets => ?_
  split
  · exact .fail _
  · exact .refl _

theorem gives_sizeOfPlaces (role : String) (start : Nat) (places : List Int) :
    Gives (sizeOfPlaces partition f role start places)
      (sizeOfPlaces partition f' role start places) := by
  induction places generalizing start with
  | nil => exact .refl _
  | cons i places ih =>
    rw [sizeOfPlaces, sizeOfPlaces]
    split
    · exact .fail _
    · exact ih _

theorem gives_sizesOfTagged (sizes : List Nat) (entries : List (Int × Int)) :
    Gives (sizesOfTagged partition f sizes entries)
      (sizesOfTagged partition f' sizes entries) := by
  induction entries generalizing sizes with
  | nil => exact .refl _
  | cons e entries ih =>
    rw [sizesOfTagged, sizesOfTagged]
    split
    · exact .fail _
    · split
      · exact .fail _
      · exact ih _

theorem gives_readString (isText : Bool) (bytes : Array UInt8) (span : Nat × Nat) :
    Gives (readString partition f isText bytes span)
      (readString partition f' isText bytes span) := by
  unfold readString
  dsimp only
  split
  · split
    · exact .refl _
    · exact .fail _
  · exact .refl _

/-! ### Nodes with others below them -/

/-- Flat elements. -/
theorem gives_flat {primitive : Primitive} {l l' : FormLabel}
    (h : StoredAt table table' partition (.flat primitive l) (.flat primitive l') "data")
    (n : Nat) : Gives (readColumn table partition (.flat primitive l) n)
      (readColumn table' partition (.flat primitive l') n) := by
  rw [readColumn, readColumn]
  exact (gives_readFlat h primitive n).bind fun items => .refl _

section

variable {l l' : FormLabel} {width : IndexWidth}

/-- Lists. -/
theorem gives_list (h : StoredAt table table' partition (.list width f l) (.list width f' l')
      "offsets") (hps : l.parameters = l'.parameters)
    (hdata : (Form.list width f l).stringKind?.isSome →
      StoredAt table table' partition f f' "data")
    (hc : (Form.list width f l).stringKind? = none → ∀ n,
      Gives (readColumn table partition f n) (readColumn table' partition f' n)) (n : Nat) :
    Gives (readColumn table partition (.list width f l) n)
      (readColumn table' partition (.list width f' l') n) := by
  have hkind : (Form.list width f' l').stringKind? = (Form.list width f l).stringKind? := by
    rw [stringKind?, stringKind?, parameter?, parameter?, parameters, parameters]
    exact congrArg (fun ps => ((lookup ps arrayParameter).bind _).bind _) hps.symm
  rw [readColumn, readColumn]
  refine (gives_readOffsets h n).bind fun offsets => ?_
  split
  · exact .refl _
  · rw [hkind]
    split
    · next encoding heq =>
      exact (gives_buffer (hdata (by rw [heq]; rfl)) _ _).bind fun bytes =>
        (Gives.mapM (fun span => gives_readString _ _ span) _).bind fun items => .refl _
    · next heq => exact (hc heq _).bind fun items => .refl _

/-- Elements that may be missing. -/
theorem gives_option (h : StoredAt table table' partition (.option width f l) (.option width f' l')
      "index")
    (hc : ∀ n, Gives (readColumn table partition f n) (readColumn table' partition f' n))
    (n : Nat) : Gives (readColumn table partition (.option width f l) n)
      (readColumn table' partition (.option width f' l') n) := by
  rw [readColumn, readColumn]
  exact (gives_buffer h _ n).bind fun index => (gives_sizeOfPlaces _ _ _).bind fun size =>
    (hc size).bind fun items => .refl _

variable {fs fs' : List Form}

/-- Forms that give the same values, one by one. -/
abbrev AllGive (table table' : Buffers) (partition : String) : List Form → List Form → Prop :=
  List.Forall₂ fun f f' =>
    ∀ n, Gives (readColumn table partition f n) (readColumn table' partition f' n)

theorem gives_readColumns (h : AllGive table table' partition fs fs') (n : Nat) :
    Gives (readColumns table partition fs n) (readColumns table' partition fs' n) := by
  induction h with
  | nil => exact .refl _
  | cons hf _ ih =>
    rw [readColumns, readColumns]
    exact (hf n).bind fun head => ih.bind fun tail => .refl _

theorem gives_readSized (h : AllGive table table' partition fs fs') (ns : List Nat) :
    Gives (readSized table partition fs ns) (readSized table' partition fs' ns) := by
  induction h generalizing ns with
  | nil => exact .refl _
  | cons hf _ ih =>
    cases ns with
    | nil => exact .refl _
    | cons n ns =>
      rw [readSized, readSized]
      exact (hf n).bind fun head => (ih ns).bind fun tail => .refl _

/-- Records and tuples. -/
theorem gives_record {keys : Option (List String)} (hps : l.parameters = l'.parameters)
    (hc : AllGive table table' partition fs fs') (n : Nat) :
    Gives (readColumn table partition (.record fs keys l) n)
      (readColumn table' partition (.record fs' keys l') n) := by
  rw [readColumn, readColumn, hps]
  exact (gives_readColumns hc n).bind fun columns => .refl _

/-- Unions. -/
theorem gives_union {tagWidth : IndexWidth}
    (htags : StoredAt table table' partition (.union tagWidth width fs l)
      (.union tagWidth width fs' l') "tags")
    (hindex : StoredAt table table' partition (.union tagWidth width fs l)
      (.union tagWidth width fs' l') "index")
    (hc : AllGive table table' partition fs fs') (n : Nat) :
    Gives (readColumn table partition (.union tagWidth width fs l) n)
      (readColumn table' partition (.union tagWidth width fs' l') n) := by
  have hsizes : (fs.map fun _ => 0) = fs'.map fun _ => 0 := by
    rw [List.map_const', List.map_const', hc.length_eq]
  rw [readColumn, readColumn, hsizes]
  exact (gives_buffer htags _ n).bind fun tags => (gives_buffer hindex _ n).bind fun index =>
    (gives_sizesOfTagged _ _).bind fun sizes => (gives_readSized hc sizes).bind fun columns =>
      .refl _

end

end Form

namespace Column

open Form (Gives AllGive StoredAt)

variable {table table' : Buffers} {partition : String} {ps : Parameters}

theorem allGive_layouts {cs : List Column}
    (h : ∀ c ∈ cs, ∀ next next', Stored table (c.layout partition [] next).buffers →
      Stored table' (c.layout partition [] next').buffers → ∀ n,
        Gives (Form.readColumn table partition (c.layout partition [] next).form n)
          (Form.readColumn table' partition (c.layout partition [] next').form n))
    {next next' : Nat} (hst : Stored table (layouts partition next cs).buffers)
    (hst' : Stored table' (layouts partition next' cs).buffers) :
    AllGive table table' partition (layouts partition next cs).forms
      (layouts partition next' cs).forms := by
  induction cs generalizing next next' with
  | nil => exact .nil
  | cons c cs ih =>
    exact .cons (h c List.mem_cons_self _ _ hst.left hst'.left)
      (ih (fun d hd => h d (List.mem_cons_of_mem _ hd)) hst.right hst'.right)

/-- **A layout under other numbers gives the same values.** -/
theorem gives_layout (c : Column) {next next' : Nat} (hps : Plain ps)
    (hst : Stored table (c.layout partition ps next).buffers)
    (hst' : Stored table' (c.layout partition ps next').buffers) (n : Nat) :
    Gives (Form.readColumn table partition (c.layout partition ps next).form n)
      (Form.readColumn table' partition (c.layout partition ps next').form n) := by
  induction c using Column.induct generalizing ps next next' n with
  | node c ih =>
    cases c with
    | unknown m =>
      cases m with
      | zero =>
        rw [layout, layout, Form.readColumn, Form.readColumn]
        split
        · exact .refl _
        · exact .fail _
      | succ m =>
        refine Form.gives_option ⟨_, _, _, rfl, rfl, hst.head, hst'.head⟩ (fun n => ?_) n
        rw [Form.readColumn, Form.readColumn]
        split
        · exact .refl _
        · exact .fail _
    | bool | int64 | float64 | complex128 | time =>
      exact Form.gives_flat ⟨_, _, _, rfl, rfl, hst.head, hst'.head⟩ n
    | string encoding offsets data =>
      refine Form.gives_list ?_ ?_ (fun _ => ?_) (fun hnone => ?_) n
      · exact ⟨_, _, _, rfl, rfl, hst.head, hst'.head⟩
      · rfl
      · exact ⟨_, _, _, rfl, rfl, hst.tail.head, hst'.tail.head⟩
      · rw [Form.stringKind?_list, lookup_assign_self] at hnone
        cases hnone.symm.trans (Encoding.ofArrayName?_arrayName encoding)
    | option index content =>
      exact Form.gives_option ⟨_, _, _, rfl, rfl, hst.head, hst'.head⟩
        (fun n => ih content (List.mem_singleton_self _) plain_nil hst.tail hst'.tail n) n
    | list offsets content isOpen =>
      refine Form.gives_list ?_ ?_ (fun hkind => ?_) (fun _ n => ?_) n
      · exact ⟨_, _, _, rfl, rfl, hst.head, hst'.head⟩
      · rfl
      · rw [Form.stringKind?_list, hps.array] at hkind
        cases hkind
      · exact ih content (List.mem_singleton_self _) plain_nil hst.tail hst'.tail n
    | tuple slots m filling =>
      exact Form.gives_record rfl (allGive_layouts (fun c hc _ _ => ih c hc plain_nil) hst hst') n
    | record name fields m filling settled declared =>
      rw [layout, layout, fieldLayouts_eq, fieldLayouts_eq] at *
      exact Form.gives_record rfl (allGive_layouts (fun c hc _ _ => ih c hc plain_nil) hst hst') n
    | union tags index children current =>
      exact Form.gives_union ⟨_, _, _, rfl, rfl, hst.head, hst'.head⟩
        ⟨_, _, _, rfl, rfl, hst.tail.head, hst'.tail.head⟩
        (allGive_layouts (fun c hc _ _ => ih c hc plain_nil) hst.tail.tail hst'.tail.tail) n

end Column

end Columnar
