import Columnar.Form.Values
import Columnar.Proofs.Form.Labels

/-!
# Forms that are read alike

Of the label of a form, reading uses the key and two annotations: the one that tells strings from
other lists, and the one that gives records a name.  A form under another label with the same key
and the same two annotations is read alike, errors included.

## Main definitions

* `FormLabel.ReadsLike` — labels with the same key and the same two annotations.

## Main results

* `Form.toValues_relabel` — **no other annotation is ever read.**
-/

namespace Columnar

/-- One label is read like another one. -/
structure FormLabel.ReadsLike (l l' : FormLabel) : Prop where
  key? : l.key? = l'.key?
  array : lookup l.parameters arrayParameter = lookup l'.parameters arrayParameter
  record : lookup l.parameters recordParameter = lookup l'.parameters recordParameter

namespace Form

variable {table : Buffers} {partition : String} {f g : Form}

/-! ### What the key is used for -/

theorem fail_congr {α : Type} (h : f.key? = g.key?) (cause : ReadCause) :
    (f.fail cause : Reading α) = g.fail cause := by
  rw [fail, fail, h]

theorem outOfRange_congr {α : Type} (h : f.key? = g.key?) (role : String) (value : Int) :
    (f.outOfRange partition role value : Reading α) = g.outOfRange partition role value := by
  rw [outOfRange, outOfRange, h]
  exact fail_congr h _

theorem buffer_congr {α : Type} (h : f.key? = g.key?) (role : String) (elements : Elements α)
    (needed : Nat) :
    f.buffer table partition role elements needed
      = g.buffer table partition role elements needed := by
  unfold buffer
  rw [h]
  cases g.key? with
  | none => exact fail_congr h _
  | some key =>
    simp only
    split
    · exact fail_congr h _
    · split
      · exact fail_congr h _
      · split
        · rfl
        · exact fail_congr h _

theorem readFlat_congr (h : f.key? = g.key?) (primitive : Primitive) (n : Nat) :
    f.readFlat table partition primitive n = g.readFlat table partition primitive n := by
  cases primitive <;> simp only [readFlat, buffer_congr h]

theorem readOffsets_congr (h : f.key? = g.key?) (n : Nat) :
    f.readOffsets table partition n = g.readOffsets table partition n := by
  simp only [readOffsets, buffer_congr h, outOfRange_congr h]

theorem sizeOfPlaces_congr (h : f.key? = g.key?) (role : String) (start : Nat) (places : List Int) :
    sizeOfPlaces partition f role start places = sizeOfPlaces partition g role start places := by
  induction places generalizing start with
  | nil => rfl
  | cons i places ih => simp only [sizeOfPlaces, outOfRange_congr h, ih]

theorem sizesOfTagged_congr (h : f.key? = g.key?) (sizes : List Nat) (entries : List (Int × Int)) :
    sizesOfTagged partition f sizes entries = sizesOfTagged partition g sizes entries := by
  induction entries generalizing sizes with
  | nil => rfl
  | cons e entries ih => simp only [sizesOfTagged, outOfRange_congr h, ih]

/-! ### Reading -/

/-- **No other annotation is ever read**: a form under a label that is read alike is read alike. -/
theorem readColumn_relabel {l : FormLabel} (h : l.ReadsLike f.label) (n : Nat) :
    readColumn table partition (f.relabel l) n = readColumn table partition f n := by
  have hkey : (f.relabel l).key? = f.key? := by rw [key?, key?, label_relabel, h.key?]
  have hkind : (f.relabel l).stringKind? = f.stringKind? := by
    rw [stringKind?, stringKind?, parameter?, parameter?, parameters, parameters, label_relabel,
      h.array]
  cases f with
  | empty l' =>
    simp only [relabel, readColumn] at hkey ⊢
    split
    · rfl
    · exact fail_congr hkey _
  | flat p l' =>
    simp only [relabel] at hkey
    simp only [relabel, readColumn, readFlat_congr hkey]
  | list width c l' =>
    simp only [relabel] at hkey hkind
    simp only [relabel, readColumn, readOffsets_congr hkey, hkind]
  | option width c l' =>
    simp only [relabel] at hkey
    simp only [relabel, readColumn, buffer_congr hkey, sizeOfPlaces_congr hkey]
  | record cs keys l' =>
    have hrecord : lookup l.parameters recordParameter = lookup l'.parameters recordParameter :=
      h.record
    simp only [relabel, readColumn, hrecord]
  | union tags width cs l' =>
    simp only [relabel] at hkey
    simp only [relabel, readColumn, buffer_congr hkey, sizesOfTagged_congr hkey]

theorem toValues_relabel {l : FormLabel} (h : l.ReadsLike f.label) (n : Nat) :
    (f.relabel l).toValues n table partition = f.toValues n table partition := by
  rw [toValues, readColumn_relabel h, toValues]

end Form

end Columnar
