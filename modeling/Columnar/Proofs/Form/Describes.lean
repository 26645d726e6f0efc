import Columnar.Proofs.Form.Access

/-!
# Values that a form describes

A form says which values there are in an array: the numbers of one width, the slots and the
fields in one order, the classes of the contents.  Whatever the buffers hold, no value is read
that its form does not describe.

## Main definitions

* `Primitive.Holds` — a value is an element of a flat buffer.
* `Form.Describes` — a value has the shape that a form gives it.

## Main results

* `Form.describes_of_valueAt?`, `Form.describes_of_toValues` — **what is read is described.**
-/

namespace Columnar

/-- A value is an element of a flat buffer. -/
inductive Primitive.Holds : Primitive → Value → Prop
  /-- Truth values. -/
  | bool (b : Bool) : Holds .bool (.bool b)
  /-- Bytes are integers. -/
  | uint8 (n : Int64) : Holds .uint8 (.int n)
  /-- Integers. -/
  | int64 (n : Int64) : Holds .int64 (.int n)
  /-- Reals. -/
  | float64 (x : Binary64) : Holds .float64 (.real x)
  /-- Complex numbers. -/
  | complex128 (z : Complex) : Holds .complex128 (.complex z)
  /-- Times of one kind and unit. -/
  | time {kind : TimeKind} {unit : TimeUnit} {v : Value} (n : Int64)
      (h : v = .time kind n unit) : Holds (.time kind unit) v

namespace Form

/-- A value has the shape that a form gives it. -/
inductive Describes : Form → Value → Prop
  /-- Elements of a flat buffer. -/
  | flat {primitive : Primitive} {l : FormLabel} {v : Value} (h : primitive.Holds v) :
      Describes (.flat primitive l) v
  /-- Strings. -/
  | string {width : IndexWidth} {content : Form} {l : FormLabel} {encoding : Encoding}
      {v : Value} (hkind : (Form.list width content l).stringKind? = some encoding)
      (hv : v.class? = some (.string encoding)) : Describes (.list width content l) v
  /-- Lists. -/
  | list {width : IndexWidth} {content : Form} {l : FormLabel} {items : List Value}
      (hkind : (Form.list width content l).stringKind? = none)
      (h : ∀ v ∈ items, Describes content v) : Describes (.list width content l) (.list items)
  /-- Missing values. -/
  | null {width : IndexWidth} {content : Form} {l : FormLabel} :
      Describes (.option width content l) .null
  /-- Present values. -/
  | present {width : IndexWidth} {content : Form} {l : FormLabel} {v : Value}
      (h : Describes content v) : Describes (.option width content l) v
  /-- Tuples. -/
  | tuple {contents : List Form} {l : FormLabel} {items : List Value}
      (hlen : items.length = contents.length)
      (h : ∀ (i : Nat) (f : Form) (v : Value), contents[i]? = some f → items[i]? = some v →
        Describes f v) : Describes (.record contents none l) (.tuple items)
  /-- Records. -/
  | record {contents : List Form} {keys : List String} {l : FormLabel} {items : List Value}
      (hlen : items.length = contents.length)
      (h : ∀ (i : Nat) (f : Form) (v : Value), contents[i]? = some f → items[i]? = some v →
        Describes f v) :
      Describes (.record contents (some keys) l)
        (.record ((lookup l.parameters recordParameter).bind Document.asString?)
          (lastEntries (keys.zip items)))
  /-- Values of several kinds. -/
  | union {tagWidth width : IndexWidth} {contents : List Form} {l : FormLabel} {f : Form}
      {v : Value} (hf : f ∈ contents) (h : Describes f v) :
      Describes (.union tagWidth width contents l) v

variable {table : Buffers} {partition : String}

theorem describes_of_flatAt? {f : Form} {primitive : Primitive} {i : Nat} {v : Value}
    (h : f.flatAt? table partition primitive i = some v) : primitive.Holds v := by
  cases primitive with
  | time kind unit =>
    obtain ⟨n, -, rfl⟩ := Option.map_eq_some_iff.mp h
    exact .time _ rfl
  | _ =>
    obtain ⟨x, -, rfl⟩ := Option.map_eq_some_iff.mp h
    constructor

theorem class?_of_stringAt? {content : Form} {encoding : Encoding} {places : List Nat}
    {v : Value} (h : content.stringAt? table partition encoding places = some v) :
    v.class? = some (.string encoding) := by
  obtain ⟨bytes, -, h⟩ := Option.bind_eq_some_iff.mp h
  cases encoding with
  | utf8 =>
    obtain ⟨s, -, rfl⟩ := Option.map_eq_some_iff.mp h
    rfl
  | bytes =>
    cases h
    rfl

theorem mem_of_mapM_eq_some {α β : Type} {f : α → Option β} {l : List α} {out : List β}
    (h : l.mapM f = some out) : ∀ b ∈ out, ∃ a ∈ l, f a = some b := by
  induction l generalizing out with
  | nil =>
    cases h
    nofun
  | cons a l ih =>
    rw [List.mapM_cons] at h
    obtain ⟨b, hb, h⟩ := Option.bind_eq_some_iff.mp h
    obtain ⟨bs, hbs, ⟨⟩⟩ := Option.bind_eq_some_iff.mp h
    refine List.forall_mem_cons.mpr ⟨⟨a, List.mem_cons_self, hb⟩, fun b' hb' => ?_⟩
    obtain ⟨a', ha', heq⟩ := ih hbs b' hb'
    exact ⟨a', List.mem_cons_of_mem _ ha', heq⟩

theorem of_rowAt? {fs : List Form} {i : Nat} {items : List Value}
    (h : rowAt? table partition fs i = some items) :
    List.Forall₂ (fun f v => f.valueAt? table partition i = some v) fs items := by
  induction fs generalizing items with
  | nil =>
    cases h
    exact .nil
  | cons f fs ih =>
    obtain ⟨v, hv, h⟩ := Option.bind_eq_some_iff.mp h
    obtain ⟨vs, hvs, ⟨⟩⟩ := Option.bind_eq_some_iff.mp h
    exact .cons hv (ih hvs)

/-- **What is read is described**: an element that random access leads to has the shape that
the form gives it. -/
theorem describes_of_valueAt? (f : Form) (i : Nat) (v : Value)
    (h : f.valueAt? table partition i = some v) : f.Describes v := by
  induction f using induct generalizing i v with
  | node f ih =>
    cases f with
    | empty l => cases h
    | flat primitive l => exact .flat (describes_of_flatAt? h)
    | list width content l =>
      rw [valueAt?] at h
      obtain ⟨places, -, h⟩ := Option.bind_eq_some_iff.mp h
      cases hkind : (Form.list width content l).stringKind? with
      | some encoding =>
        simp only [hkind] at h
        exact .string hkind (class?_of_stringAt? h)
      | none =>
        simp only [hkind] at h
        obtain ⟨items, hitems, rfl⟩ := Option.map_eq_some_iff.mp h
        refine .list hkind fun w hw => ?_
        obtain ⟨j, -, hj⟩ := mem_of_mapM_eq_some hitems w hw
        exact ih content (List.mem_singleton_self _) j w hj
    | option width content l =>
      rw [valueAt?] at h
      obtain ⟨place, -, h⟩ := Option.bind_eq_some_iff.mp h
      split at h
      · cases h
        exact .null
      · exact .present (ih content (List.mem_singleton_self _) _ v h)
    | record fs keys l =>
      rw [valueAt?] at h
      obtain ⟨items, hitems, h⟩ := Option.bind_eq_some_iff.mp h
      have hall := of_rowAt? hitems
      have hslots : ∀ (j : Nat) (f : Form) (w : Value), fs[j]? = some f → items[j]? = some w →
          f.Describes w := by
        intro j f w hf hw
        obtain ⟨hj, rfl⟩ := List.getElem?_eq_some_iff.mp hf
        obtain ⟨hj', rfl⟩ := List.getElem?_eq_some_iff.mp hw
        exact ih _ (List.getElem_mem hj) i _ (hall.get hj hj')
      cases keys with
      | none =>
        cases h
        exact .tuple hall.length_eq.symm hslots
      | some keys =>
        cases h
        exact .record hall.length_eq.symm hslots
    | union tagWidth width fs l =>
      rw [valueAt?] at h
      obtain ⟨tag, -, h⟩ := Option.bind_eq_some_iff.mp h
      obtain ⟨place, -, h⟩ := Option.bind_eq_some_iff.mp h
      split at h
      · rw [memberAt?_eq] at h
        obtain ⟨f, hf, h⟩ := Option.bind_eq_some_iff.mp h
        have hmem := List.mem_of_getElem? hf
        exact .union hmem (ih f hmem _ v h)
      · cases h

/-- **What is read is described**, whatever the buffers are. -/
theorem describes_of_toValues {f : Form} {n : Nat} {vals : List Value}
    (h : f.toValues n table partition = .ok vals) : ∀ v ∈ vals, f.Describes v := by
  obtain ⟨hlen, hvalues⟩ := toValues_shows h
  intro v hv
  obtain ⟨i, hi, rfl⟩ := List.mem_iff_getElem.mp hv
  refine describes_of_valueAt? f i _ ((hvalues i (hlen ▸ hi)).trans ?_)
  exact List.getElem?_eq_getElem hi

end Form

end Columnar
