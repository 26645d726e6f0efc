import Columnar.Proofs.Column.Names
import Columnar.Proofs.Document.Nesting
import Columnar.Proofs.Form.Access

/-!
# The labels of a form

Every node of a form has a label.  In a layout only the root is given annotations; every other
node has none, but for the one that a column of strings or of named records sets of its own.  So
the annotations that are given show in the label of the root and in nothing else.

## Main definitions

* `Form.Everywhere` — what holds of the label of every node.
* `Form.relabel` — a form under another label.
* `FormLabel.IsProper` — annotations as they are held: each name once, all objects sorted.
* `FormLabel.HasWords` — annotations whose numbers are whole.
* `Column.ownAnnotation?`, `Column.annotate` — the annotation that a column sets of its own.

## Main results

* `Column.layout_eq_relabel` — **the annotations that are given stand at the root alone.**
* `Column.everywhere_layout` — what holds of the labels of a layout.
-/

namespace Columnar

/-- What holds of the label of every node of a form. -/
inductive Form.Everywhere (P : FormLabel → Prop) : Form → Prop
  /-- The outermost node, and the forms directly below it. -/
  | intro {f : Form} (label : P f.label) (contents : ∀ g ∈ f.contents, Everywhere P g) :
      Everywhere P f

namespace Form.Everywhere

variable {P Q : FormLabel → Prop} {f : Form}

theorem label : f.Everywhere P → P f.label
  | .intro h _ => h

theorem contents : f.Everywhere P → ∀ g ∈ f.contents, g.Everywhere P
  | .intro _ h => h

theorem mono (himp : ∀ l, P l → Q l) (h : f.Everywhere P) : f.Everywhere Q := by
  induction h with
  | intro label _ ih => exact .intro (himp _ label) ih

end Form.Everywhere

namespace Form

/-- The form under another label. -/
def relabel (l : FormLabel) : Form → Form
  | .empty _ => .empty l
  | .flat p _ => .flat p l
  | .list o c _ => .list o c l
  | .option i c _ => .option i c l
  | .record cs keys _ => .record cs keys l
  | .union t i cs _ => .union t i cs l

@[simp] theorem label_relabel (l : FormLabel) (f : Form) : (f.relabel l).label = l := by
  cases f <;> rfl

@[simp] theorem contents_relabel (l : FormLabel) (f : Form) :
    (f.relabel l).contents = f.contents := by
  cases f <;> rfl

theorem Everywhere.relabel {P : FormLabel → Prop} {f : Form} {l : FormLabel}
    (h : f.Everywhere P) (hl : P l) : (f.relabel l).Everywhere P := by
  refine .intro ?_ ?_
  · rwa [label_relabel]
  · rw [contents_relabel]
    exact h.contents

end Form

/-! ### Annotations -/

/-- Annotations as a node holds them: every name is there once, and every object in them is
sorted by its keys. -/
structure FormLabel.IsProper (l : FormLabel) : Prop where
  nodup : (l.parameters.map Prod.fst).Nodup
  sorted : ∀ e ∈ l.parameters, e.2.sorted = e.2

/-- All numbers in the annotations are whole and of 64 bits. -/
def FormLabel.HasWords (l : FormLabel) : Prop := ∀ e ∈ l.parameters, e.2.hasWords = true

theorem nodup_keys_assign {α : Type} {t : List (String × α)} (h : (t.map Prod.fst).Nodup)
    (key : String) (value : α) : ((assign t key value).map Prod.fst).Nodup := by
  by_cases hmem : key ∈ t.map Prod.fst
  · rwa [keys_assign, if_pos hmem]
  · rw [assign_of_not_mem hmem]
    exact nodup_keys_concat h hmem value

namespace FormLabel

variable {ps : Parameters} {key? : Option String}

theorem isProper_nil : IsProper ⟨[], key?⟩ := ⟨List.nodup_nil, nofun⟩

theorem hasWords_nil : HasWords ⟨[], key?⟩ := nofun

/-- Annotations stay proper when one more is set to a sorted document. -/
theorem IsProper.assign (h : IsProper ⟨ps, key?⟩) (name : String) {d : Document}
    (hd : d.sorted = d) : IsProper ⟨assign ps name d, key?⟩ := by
  refine ⟨nodup_keys_assign h.nodup name d, fun e he => ?_⟩
  rcases mem_assign he with he | rfl
  · exact h.sorted e he
  · exact hd

theorem HasWords.assign (h : HasWords ⟨ps, key?⟩) (name : String) {d : Document}
    (hd : d.hasWords = true) : HasWords ⟨assign ps name d, key?⟩ := by
  intro e he
  rcases mem_assign he with he | rfl
  · exact h e he
  · exact hd

end FormLabel

/-! ### Layouts -/

namespace Column

variable {partition : String}

/-- The annotation that a column sets of its own, as a name and a text. -/
def ownAnnotation? : Column → Option (String × String)
  | .string encoding _ _ => some (arrayParameter, encoding.arrayName)
  | .record (some name) _ _ _ _ _ => some (recordParameter, name)
  | _ => none

/-- Annotations together with the one that a column sets of its own. -/
def annotate (c : Column) (ps : Parameters) : Parameters :=
  match c.ownAnnotation? with
  | some (name, text) => assign ps name (.string text)
  | none => ps

/-- **The annotations that are given stand at the root alone**: with others, a layout differs in
the label of the root and in nothing else. -/
theorem layout_eq_relabel (c : Column) (ps : Parameters) (next : Nat) :
    c.layout partition ps next =
      ⟨(c.layout partition [] next).form.relabel ⟨c.annotate ps, some (nodeKey next)⟩,
        (c.layout partition [] next).buffers, (c.layout partition [] next).next⟩ := by
  cases c with
  | unknown n => cases n <;> rfl
  | record name fields n filling settled declared => cases name <;> rfl
  | _ => rfl

theorem label_layout (c : Column) (ps : Parameters) (next : Nat) :
    (c.layout partition ps next).form.label = ⟨c.annotate ps, some (nodeKey next)⟩ := by
  rw [layout_eq_relabel, Form.label_relabel]

/-- The annotations of a node below the root: none, or the one of its own. -/
theorem annotate_nil {P : Parameters → Prop} (hnil : P [])
    (hown : ∀ name s, name = arrayParameter ∨ name = recordParameter → P [(name, .string s)])
    (c : Column) : P (c.annotate []) := by
  cases c with
  | string encoding offsets data => exact hown _ _ (.inl rfl)
  | record name fields n filling settled declared =>
    cases name with
    | none => exact hnil
    | some name => exact hown _ _ (.inr rfl)
  | _ => exact hnil

/-- The form of a column among others is its layout from some number on. -/
theorem exists_of_mem_layouts {cs : List Column} {next : Nat} {g : Form}
    (h : g ∈ (layouts partition next cs).forms) :
    ∃ c ∈ cs, ∃ n, g = (c.layout partition [] n).form := by
  induction cs generalizing next with
  | nil => cases h
  | cons c cs ih =>
    rw [layouts] at h
    rcases List.mem_cons.mp h with rfl | h
    · exact ⟨c, List.mem_cons_self, next, rfl⟩
    · obtain ⟨d, hd, n, rfl⟩ := ih h
      exact ⟨d, List.mem_cons_of_mem _ hd, n, rfl⟩

/-- The contents of a layout are the layouts of the nodes below, to which no annotations are
given; beside them there is the empty content of missing elements, and the bytes of strings. -/
theorem exists_of_mem_contents {c : Column} {ps : Parameters} {next : Nat} {g : Form}
    (h : g ∈ (c.layout partition ps next).form.contents) :
    (∃ d ∈ c.children, ∃ n, g = (d.layout partition [] n).form) ∨ ∃ key?, g = .empty ⟨[], key?⟩ ∨
      ∃ encoding : Encoding,
        g = .flat .uint8 ⟨[(arrayParameter, .string encoding.itemName)], key?⟩ := by
  cases c with
  | unknown n =>
    cases n with
    | zero => cases h
    | succ n => exact .inr ⟨_, .inl (List.mem_singleton.mp h)⟩
  | bool | int64 | float64 | complex128 | time => cases h
  | string encoding offsets data =>
    exact .inr ⟨_, .inr ⟨encoding, List.mem_singleton.mp h⟩⟩
  | option index content =>
    exact .inl ⟨content, List.mem_singleton_self _, _, List.mem_singleton.mp h⟩
  | list offsets content isOpen =>
    exact .inl ⟨content, List.mem_singleton_self _, _, List.mem_singleton.mp h⟩
  | tuple slots n filling => exact .inl (exists_of_mem_layouts h)
  | record name fields n filling settled declared =>
    rw [layout, fieldLayouts_eq] at h
    exact .inl (exists_of_mem_layouts h)
  | union tags index children current => exact .inl (exists_of_mem_layouts h)

/-- What holds of no annotations, and of the one that a column sets of its own, holds of every
label of a layout to which no annotations are given. -/
theorem everywhere_layout {P : Parameters → Prop} (hnil : P [])
    (hown : ∀ name s, name = arrayParameter ∨ name = recordParameter → P [(name, .string s)])
    (c : Column) (next : Nat) :
    (c.layout partition [] next).form.Everywhere fun l => P l.parameters := by
  induction c using Column.induct generalizing next with
  | node c ih =>
    refine .intro ?_ fun g hg => ?_
    · rw [label_layout]
      exact annotate_nil hnil hown c
    · rcases exists_of_mem_contents hg with ⟨d, hd, n, rfl⟩ | ⟨key?, rfl | ⟨encoding, rfl⟩⟩
      · exact ih d hd n
      · exact .intro hnil nofun
      · exact .intro (hown _ _ (.inl rfl)) nofun

/-- What is kept when a text is set is kept by the annotation of a column. -/
theorem annotate_of_assign {P : Parameters → Prop}
    (hassign : ∀ ps name s, P ps → P (assign ps name (.string s))) (c : Column) {ps : Parameters}
    (hps : P ps) : P (c.annotate ps) := by
  unfold annotate
  split
  · exact hassign _ _ _ hps
  · exact hps

/-- A layout has proper labels if its root is given proper annotations. -/
theorem isProper_layout (c : Column) {ps : Parameters} (hps : FormLabel.IsProper ⟨ps, none⟩)
    (next : Nat) : (c.layout partition ps next).form.Everywhere FormLabel.IsProper := by
  have hbelow : (c.layout partition [] next).form.Everywhere
      fun l => FormLabel.IsProper ⟨l.parameters, none⟩ :=
    everywhere_layout (P := fun ps => FormLabel.IsProper ⟨ps, none⟩) FormLabel.isProper_nil
      (fun name s _ => FormLabel.isProper_nil.assign name rfl) c next
  have hroot := annotate_of_assign (P := fun ps => FormLabel.IsProper ⟨ps, none⟩)
    (fun _ name _ h => h.assign name rfl) c hps
  rw [layout_eq_relabel]
  exact (hbelow.mono fun _ h => ⟨h.nodup, h.sorted⟩).relabel ⟨hroot.nodup, hroot.sorted⟩

/-- A layout has whole numbers in its labels if its root is given such annotations. -/
theorem hasWords_layout (c : Column) {ps : Parameters} (hps : FormLabel.HasWords ⟨ps, none⟩)
    (next : Nat) : (c.layout partition ps next).form.Everywhere FormLabel.HasWords := by
  have hbelow : (c.layout partition [] next).form.Everywhere
      fun l => FormLabel.HasWords ⟨l.parameters, none⟩ :=
    everywhere_layout (P := fun ps => FormLabel.HasWords ⟨ps, none⟩) FormLabel.hasWords_nil
      (fun name s _ => FormLabel.hasWords_nil.assign name rfl) c next
  have hroot := annotate_of_assign (P := fun ps => FormLabel.HasWords ⟨ps, none⟩)
    (fun _ name _ h => h.assign name rfl) c hps
  rw [layout_eq_relabel]
  exact (hbelow.mono fun _ h => h).relabel hroot

end Column

end Columnar
