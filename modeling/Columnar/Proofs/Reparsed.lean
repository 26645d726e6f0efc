import Columnar.Proofs.Annotations
import Columnar.Proofs.Column.Depth

/-!
# Forms of builders as texts

The form of a builder is read back from its text as long as the text nests within the limit of
the library that reads documents, which refuses 128 levels.  The limit of the builder counts open
containers, and a container takes up to five levels of text.  So a builder that may have 24
containers open never writes a form that cannot be read; with the limit that is set unless others
are, 127 nested lists are enough for a text that nests too deep.

## Main results

* `Builder.ofText_form` — **which forms of a builder are read back.**
* `Builder.ofText_form_nestedLists` — a form that is not, within the usual limit.
-/

namespace Columnar.Builder

/-- The labels of a builder without annotations from outside are proper, and without numbers. -/
theorem everywhere_form {o : Options} {calls : List Request} (hcalls : settings calls = [])
    (partition : String) :
    (((new o).run calls).layout partition).form.Everywhere FormLabel.IsProper ∧
      (((new o).run calls).layout partition).form.Everywhere FormLabel.HasWords := by
  have hparameters : ((new o).run calls).parameters = [] := by
    rw [parameters_run, hcalls]
    rfl
  rw [layout, hparameters]
  exact ⟨Column.isProper_layout _ FormLabel.isProper_nil 0,
    Column.hasWords_layout _ FormLabel.hasWords_nil 0⟩

/-- **A form of a builder is read back from its text exactly if the text nests less than 128
levels**, by any library of documents that does what it is said to do.  It nests no more than five
levels for every container that may be open, and six beside; so it is always read back if no more
than 24 containers may be open. -/
theorem ofText_form {lib : DocumentLibrary} (hlib : lib.IsDocumented) (o : Options)
    (calls : List Request) (partition : String) (hcalls : settings calls = []) :
    let f := (((new o).run calls).layout partition).form
    (f.toDocument.nesting < 128 → Form.ofTextBy lib (f.textBy lib) = .ok f) ∧
      (128 ≤ f.toDocument.nesting → ∀ g, Form.ofTextBy lib (f.textBy lib) ≠ .ok g) ∧
      f.toDocument.nesting ≤ 5 * o.maxDepth + 6 ∧
      (o.maxDepth ≤ 24 → Form.ofTextBy lib (f.textBy lib) = .ok f) := by
  intro f
  obtain ⟨hproper, hwords⟩ := everywhere_form (o := o) hcalls partition
  obtain ⟨hread, hrefused⟩ := Form.ofText_text hlib hproper hwords
  have hbound : f.toDocument.nesting ≤ 5 * o.maxDepth + 6 := by
    have hparameters : FormLabel.IsFlat ⟨((new o).run calls).parameters, none⟩ := by
      rw [parameters_run, hcalls]
      nofun
    have hle : f.toDocument.nesting ≤ 5 * o.maxDepth + 3 + ((new o).run calls).root.wrapping :=
      Column.nesting_layout (sound_run o calls) (nestsWithin_run o calls).1 hparameters 0
    have hwrapping := ((new o).run calls).root.wrapping_le
    omega
  refine ⟨hread, fun hnest g hg => ?_, hbound,
    fun hlimit => ?_⟩
  · obtain ⟨fault, hfault⟩ := hrefused hnest
    rw [hfault] at hg
    cases hg
  · exact hread (Nat.lt_of_le_of_lt hbound (show 5 * o.maxDepth + 6 < 128 by omega))

/-- Where 24 containers may be open, a missing value in a tuple in a record is read back. -/
theorem ofText_form_smallLimit :
    let calls : List Request := [.push (.beginRecord (some "p")), .push (.field "a" true),
      .push (.beginTuple 1), .push (.index 0), .push .null]
    let f := (((new (({} : Options).withMaxDepth 24)).run calls).layout "0").form
    settings calls = [] ∧ Form.ofText f.text = .ok f := by
  intro calls f
  have hform := ofText_form DocumentLibrary.isDocumented_standard (({} : Options).withMaxDepth 24)
    calls "0" rfl
  exact ⟨rfl, hform.2.2.2 (Nat.le_refl 24)⟩

/-- The form of 127 open lists, one less than may be open by default, is read back by no library
of documents that does what it is said to do, such as the one of the programs. -/
theorem ofText_form_nestedLists :
    let calls : List Request := List.replicate 127 (.push .beginList)
    let f := (((new {}).run calls).layout "0").form
    settings calls = [] ∧ ((new {}).run calls).depth = 127 ∧
      (∀ lib : DocumentLibrary, lib.IsDocumented → ∀ g, Form.ofTextBy lib (f.textBy lib) ≠ .ok g) ∧
      ∀ g, Form.ofText f.text ≠ .ok g := by
  intro calls f
  have hcalls : settings calls = [] := rfl
  obtain ⟨hproper, hwords⟩ := everywhere_form (o := {}) hcalls "0"
  have hnest : 128 ≤ f.toDocument.nesting := by decide +kernel
  have hrefused : ∀ lib : DocumentLibrary, lib.IsDocumented →
      ∀ g, Form.ofTextBy lib (f.textBy lib) ≠ .ok g := by
    intro lib hlib g hg
    obtain ⟨fault, hfault⟩ := (Form.ofText_text hlib hproper hwords).2 hnest
    rw [hfault] at hg
    cases hg
  exact ⟨hcalls, by decide +kernel, hrefused, hrefused _ DocumentLibrary.isDocumented_standard⟩

end Columnar.Builder
