import Mathlib.Data.List.Forall2
import Columnar.Proofs.Form.Access

/-!
# More general forms

One form is below another one if the other one has a place for everything that the first one
has, where it had it: numbers may be wider, records may have further fields and unions further
kinds behind those that were there, and what is there may have become the first kind of a union
or may be missing at times.  Keys and annotations do not count, but for those that tell strings
from lists and give records their names.

## Main definitions

* `Primitive.WidensTo` — an element type holds the numbers of another one.
* `Form.Below` — a form is below another one.

## Main results

* `Form.Below.trans` — what is below a form is below whatever that one is below.
-/

namespace Columnar

/-- An element type is another one, or holds the numbers of it. -/
inductive Primitive.WidensTo : Primitive → Primitive → Prop
  /-- The same type. -/
  | same (p : Primitive) : WidensTo p p
  /-- Integers as reals. -/
  | int64_float64 : WidensTo .int64 .float64
  /-- Integers as complex numbers. -/
  | int64_complex128 : WidensTo .int64 .complex128
  /-- Reals as complex numbers. -/
  | float64_complex128 : WidensTo .float64 .complex128

theorem Primitive.WidensTo.trans {p q r : Primitive} (h : p.WidensTo q) (h' : q.WidensTo r) :
    p.WidensTo r := by
  cases h with
  | same => exact h'
  | int64_float64 =>
    cases h' with
    | same => exact .int64_float64
    | float64_complex128 => exact .int64_complex128
  | int64_complex128 =>
    cases h' with
    | same => exact .int64_complex128
  | float64_complex128 =>
    cases h' with
    | same => exact .float64_complex128

open List (Forall₂)

namespace Form

/-- The name that the records of a form are annotated with. -/
def recordName? (f : Form) : Option String :=
  (f.parameter? recordParameter).bind Document.asString?

/-- A form is below another one, which is at least as general. -/
inductive Below : Form → Form → Prop
  /-- Nothing has been seen yet. -/
  | empty (l : FormLabel) (g : Form) : Below (.empty l) g
  /-- Flat elements, with wider numbers or the same ones. -/
  | flat {p q : Primitive} {l l' : FormLabel} (h : p.WidensTo q) :
      Below (.flat p l) (.flat q l')
  /-- Lists, or strings of the same encoding. -/
  | list {width : IndexWidth} {f g : Form} {l l' : FormLabel}
      (hkind : (Form.list width f l).stringKind? = (Form.list width g l').stringKind?)
      (h : Below f g) : Below (.list width f l) (.list width g l')
  /-- Elements that may be missing. -/
  | option {width : IndexWidth} {f g : Form} {l l' : FormLabel} (h : Below f g) :
      Below (.option width f l) (.option width g l')
  /-- Tuples of the same arity. -/
  | tuple {fs gs : List Form} {l l' : FormLabel}
      (hname : (Form.record fs none l).recordName? = (Form.record gs none l').recordName?)
      (h : Forall₂ Below fs gs) : Below (.record fs none l) (.record gs none l')
  /-- Records of the same name, with further fields behind those that were there. -/
  | record {fs gs more : List Form} {keys moreKeys : List String} {l l' : FormLabel}
      (hname : (Form.record fs (some keys) l).recordName?
        = (Form.record (gs ++ more) (some (keys ++ moreKeys)) l').recordName?)
      (h : Forall₂ Below fs gs) :
      Below (.record fs (some keys) l) (.record (gs ++ more) (some (keys ++ moreKeys)) l')
  /-- Unions, with further kinds behind those that were there. -/
  | union {tags width : IndexWidth} {fs gs more : List Form} {l l' : FormLabel}
      (h : Forall₂ Below fs gs) :
      Below (.union tags width fs l) (.union tags width (gs ++ more) l')
  /-- What has become the first kind of a union. -/
  | inUnion {tags width : IndexWidth} {f g : Form} {gs : List Form} {l : FormLabel}
      (h : Below f g) : Below f (.union tags width (g :: gs) l)
  /-- What may be missing now. -/
  | inOption {width : IndexWidth} {f g : Form} {l : FormLabel} (h : Below f g) :
      Below f (.option width g l)

namespace Below

/-- Records below others have the same name. -/
theorem recordName?_eq {fs gs : List Form} {keys keys' : Option (List String)} {l l' : FormLabel}
    (h : (Form.record fs keys l).Below (.record gs keys' l')) :
    (Form.record fs keys l).recordName? = (Form.record gs keys' l').recordName? := by
  generalize hg : Form.record gs keys' l' = g at h ⊢
  cases h with
  | tuple hname _ | record hname _ => exact hname
  | inUnion | inOption => cases hg

theorem trans_forall₂ {fs gs ks : List Form} (h : Forall₂ Below fs gs)
    (h' : Forall₂ Below gs ks)
    (ih : ∀ k ∈ ks, ∀ f g : Form, f.Below g → g.Below k → f.Below k) : Forall₂ Below fs ks := by
  induction h generalizing ks with
  | nil => exact h'
  | cons hf _ ihs =>
    cases h' with
    | cons hg hgs =>
      obtain ⟨hk, hks⟩ := List.forall_mem_cons.mp ih
      exact .cons (hk _ _ hf hg) (ihs hgs hks)

/-- **What is below a form is below whatever that one is below.** -/
theorem trans {f g k : Form} (h : f.Below g) (h' : g.Below k) : f.Below k := by
  induction k using Form.induct generalizing f g with
  | node k ih =>
    -- the induction is on the upper form: every rule looks into it, or changes flat elements
    have hall : ∀ k' ∈ k.contents, ∀ f g : Form, f.Below g → g.Below k' → f.Below k' :=
      fun k' hk' f g hf hg => ih k' hk' hf hg
    cases h' with
    | empty l =>
      cases h with
      | empty => exact .empty _ _
    | flat hpq =>
      cases h with
      | empty => exact .empty _ _
      | flat h => exact .flat (h.trans hpq)
    | list hkind hg =>
      cases h with
      | empty => exact .empty _ _
      | list hkind' hf =>
        exact .list (hkind'.trans hkind) (ih _ (List.mem_singleton_self _) hf hg)
    | option hg =>
      cases h with
      | empty => exact .empty _ _
      | option hf => exact .option (ih _ (List.mem_singleton_self _) hf hg)
      | inOption hf => exact .inOption (ih _ (List.mem_singleton_self _) hf hg)
    | tuple hname hgs =>
      cases h with
      | empty => exact .empty _ _
      | tuple hname' hfs => exact .tuple (hname'.trans hname) (trans_forall₂ hfs hgs hall)
    | record hname hgs =>
      cases h with
      | empty => exact .empty _ _
      | record hname' hfs =>
        obtain ⟨us, vs, rfl, hus, -⟩ := reads_append hgs
        have hupper : ∀ k' ∈ us, ∀ f g : Form, f.Below g → g.Below k' → f.Below k' :=
          fun k' hk' => hall k' (List.mem_append_left _ (List.mem_append_left _ hk'))
        have hnames := hname'.trans hname
        rw [List.append_assoc, List.append_assoc] at hnames ⊢
        exact .record hnames (trans_forall₂ hfs hus hupper)
    | union hgs =>
      cases h with
      | empty => exact .empty _ _
      | union hfs =>
        obtain ⟨us, vs, rfl, hus, -⟩ := reads_append hgs
        have hupper : ∀ k' ∈ us, ∀ f g : Form, f.Below g → g.Below k' → f.Below k' :=
          fun k' hk' => hall k' (List.mem_append_left _ (List.mem_append_left _ hk'))
        rw [List.append_assoc]
        exact .union (trans_forall₂ hfs hus hupper)
      | inUnion hf =>
        cases hgs with
        | cons hg _ => exact .inUnion (ih _ List.mem_cons_self hf hg)
    | inUnion hg => exact .inUnion (ih _ List.mem_cons_self h hg)
    | inOption hg => exact .inOption (ih _ (List.mem_singleton_self _) h hg)

end Below

end Form

end Columnar
