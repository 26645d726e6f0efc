import Columnar.Form.Reading
import Columnar.Form.Values
import Columnar.Proofs.Form.Labels

/-!
# Forms are read back

The text of a form is the text of an object, whose members name the class of the node, what the
class needs, the annotations and the key.  No name comes twice among them, so the object is read
as a node of that class, and each member is read back as what it was written for.

Annotations are read back in the order in which they were set.  That needs what holds of
annotations at any time: no name is set twice, and the members of every object in them are
sorted.  A real number is not in general read back, so there has to be none.

## Main results

* `Form.ofDocument?_toDocument` — **the document of a form is read as that form.**
* `Form.ofText_text` — the text of a form is read back exactly if it nests within the limit of
  the library that reads it.
* `Form.exists_ofText_text` — **what is read back is the form, and describes the same values.**
-/

namespace Columnar

namespace Form

/-! ### Names of parts -/

theorem primitiveOf?_name (p : Primitive) : primitiveOf? (.string p.name) = some p := by
  cases p with
  | time kind unit => cases kind <;> cases unit <;> decide
  | _ => decide

theorem widthOf?_name (w : IndexWidth) : widthOf? (.string w.name) = some w :=
  IndexWidth.ofName?_name w

theorem stringsOf?_map (ks : List String) : stringsOf? (ks.map .string) = some ks := by
  induction ks with
  | nil => rfl
  | cons k ks ih => rw [List.map_cons, stringsOf?, ih, Option.map_some]

theorem fieldNamesOf?_eq (keys : Option (List String)) :
    fieldNamesOf? (some ((keys.map fun ks => Document.array (ks.map .string)).getD .null))
      = some keys := by
  cases keys with
  | none => rfl
  | some ks =>
    rw [Option.map_some, Option.getD_some, fieldNamesOf?, stringsOf?_map]
    rfl

/-! ### Labels -/

theorem keys_labelMembers (l : FormLabel) :
    ((labelMembers l).map Prod.fst).Sublist ["parameters", "form_key"] := by
  unfold labelMembers
  split_ifs
  · exact List.sublist_cons_self _ _
  · exact List.Sublist.refl _

theorem parametersOf?_object {ps : Parameters} (hnodup : (ps.map Prod.fst).Nodup)
    (hsorted : ∀ e ∈ ps, e.2.sorted = e.2) : parametersOf? (some (.object ps)) = some ps := by
  have hself : ∀ f : String × Document → String × Document,
      (∀ e ∈ ps, f e = e) → ps.map f = ps := by
    intro f hf
    exact (List.map_congr_left hf).trans (List.map_id ps)
  rw [parametersOf?, hself, tableOf_of_nodup hnodup]
  intro e he
  exact Prod.ext rfl (hsorted e he)

theorem keyOf?_eq (key? : Option String) :
    keyOf? (some ((key?.map Document.string).getD .null)) = some key? := by
  cases key? <;> rfl

theorem lookup_append_of_not_mem {α : Type} {own : List (String × α)} {name : String}
    (h : name ∉ own.map Prod.fst) (t : List (String × α)) :
    lookup (own ++ t) name = lookup t name := by
  induction own with
  | nil => rfl
  | cons e own ih =>
    obtain ⟨k, v⟩ := e
    rw [List.map_cons, List.mem_cons, not_or] at h
    rw [List.cons_append, lookup, if_neg (Ne.symm h.1), ih h.2]

/-- Annotations are read back from the label, none of them if there are none. -/
theorem parametersOf?_labelMembers {l : FormLabel} (h : l.IsProper) :
    parametersOf? (lookup (labelMembers l) "parameters") = some l.parameters := by
  unfold labelMembers
  split_ifs with hempty
  · rw [List.isEmpty_iff.mp hempty]
    rfl
  · exact parametersOf?_object h.nodup h.sorted

theorem keyOf?_labelMembers (l : FormLabel) :
    keyOf? (lookup (labelMembers l) "form_key") = some l.key? := by
  have hlast : lookup (labelMembers l) "form_key"
      = some ((l.key?.map Document.string).getD .null) := by
    unfold labelMembers
    split_ifs <;> rfl
  rw [hlast, keyOf?_eq]

/-! ### Nodes -/

theorem occurrences_le_one {ms : List (String × Document)} (h : (ms.map Prod.fst).Nodup)
    (name : String) : occurrences name ms ≤ 1 := by
  have hcount : occurrences name ms = (ms.map Prod.fst).count name := by
    rw [occurrences, List.count, List.countP_map]
    rfl
  rw [hcount]
  exact List.nodup_iff_count_le_one.mp h name

/-- An object whose members have different names is a node of the class that it names. -/
theorem nodeOf?_object {ms : List (String × Document)} {name : String} {c : Class}
    (hnodup : (ms.map Prod.fst).Nodup) (hlookup : lookup ms "class" = some (.string name))
    (hname : Class.ofName? name = some c) : nodeOf? (.object ms) = some (c, ms, false) := by
  have hone : occurrences "class" ms = 1 := by
    have hpos : 0 < occurrences "class" ms :=
      List.countP_pos_iff.mpr ⟨_, mem_of_lookup hlookup, beq_self_eq_true _⟩
    have hle := occurrences_le_one hnodup "class"
    omega
  have hall : (c.members.all fun name => decide (occurrences name ms ≤ 1)) = true := by
    rw [List.all_eq_true]
    intro name _
    exact decide_eq_true (occurrences_le_one hnodup name)
  have hclass : (lookup ms "class").bind Class.ofDocument? = some c := by
    rw [hlookup, Option.bind_some, Class.ofDocument?, hname]
  rw [nodeOf?, if_pos hone, hclass]
  exact if_pos hall

/-- The class of the outermost node. -/
def nodeClass : Form → Class
  | empty _ => .empty
  | flat _ _ => .flat
  | list _ _ _ => .list
  | option _ _ _ => .option
  | record _ _ _ => .record
  | union _ _ _ _ => .union

/-- The members of the object of a form that come before its label. -/
def ownMembers : Form → List (String × Document)
  | empty _ => [("class", .string "EmptyArray")]
  | flat p _ => [("class", .string "NumpyArray"), ("primitive", .string p.name)]
  | list o c _ =>
    [("class", .string "ListOffsetArray"), ("offsets", .string o.name), ("content", c.toDocument)]
  | option i c _ =>
    [("class", .string "IndexedOptionArray"), ("index", .string i.name), ("content", c.toDocument)]
  | record cs keys _ =>
    [("class", .string "RecordArray"), ("contents", .array (toDocuments cs)),
      ("keys", (keys.map fun ks => Document.array (ks.map .string)).getD .null)]
  | union t i cs _ =>
    [("class", .string "UnionArray"), ("tags", .string t.name), ("index", .string i.name),
      ("contents", .array (toDocuments cs))]

/-- All members of the object of a form. -/
def documentMembers (f : Form) : List (String × Document) := f.ownMembers ++ labelMembers f.label

theorem toDocument_eq (f : Form) : f.toDocument = .object f.documentMembers := by
  cases f <;> rw [toDocument] <;> rfl

theorem lookup_class (f : Form) :
    lookup f.documentMembers "class" = some (.string f.className) := by
  cases f <;> rfl

theorem ofName?_className (f : Form) : Class.ofName? f.className = some f.nodeClass := by
  cases f <;> rfl

/-- No member of a class has the name of another one, or one of those of a label. -/
theorem nodup_ownNames (f : Form) :
    (f.ownMembers.map Prod.fst ++ ["parameters", "form_key"]).Nodup := by
  cases f with
  | empty l => exact (by decide : ["class", "parameters", "form_key"].Nodup)
  | flat p l => exact (by decide : ["class", "primitive", "parameters", "form_key"].Nodup)
  | list o c l =>
    exact (by decide : ["class", "offsets", "content", "parameters", "form_key"].Nodup)
  | option i c l =>
    exact (by decide : ["class", "index", "content", "parameters", "form_key"].Nodup)
  | record cs keys l =>
    exact (by decide : ["class", "contents", "keys", "parameters", "form_key"].Nodup)
  | union t i cs l =>
    exact (by decide : ["class", "tags", "index", "contents", "parameters", "form_key"].Nodup)

theorem nodup_documentMembers (f : Form) : (f.documentMembers.map Prod.fst).Nodup := by
  rw [documentMembers, List.map_append]
  exact f.nodup_ownNames.sublist ((keys_labelMembers f.label).append_left _)

/-- The object of a form is a node of its class. -/
theorem nodeOf?_toDocument (f : Form) :
    nodeOf? f.toDocument = some (f.nodeClass, f.documentMembers, false) := by
  rw [toDocument_eq]
  exact nodeOf?_object f.nodup_documentMembers f.lookup_class f.ofName?_className

/-- The label is read back behind the members of the class. -/
theorem labelOf?_documentMembers {f : Form} (h : f.label.IsProper) :
    labelOf? f.documentMembers = some f.label := by
  have hdisjoint := List.disjoint_of_nodup_append f.nodup_ownNames
  have hparameters : "parameters" ∉ f.ownMembers.map Prod.fst := fun hmem =>
    hdisjoint hmem (by simp)
  have hkey : "form_key" ∉ f.ownMembers.map Prod.fst := fun hmem => hdisjoint hmem (by simp)
  rw [labelOf?, documentMembers, lookup_append_of_not_mem hparameters,
    lookup_append_of_not_mem hkey, parametersOf?_labelMembers h, keyOf?_labelMembers]
  rfl

/-! ### Forms of documents -/

theorem size_lt_of_mem {ms : List (String × Document)} {key : String} {d : Document}
    (h : (key, d) ∈ ms) : d.size < Document.membersSize ms := by
  induction ms with
  | nil => cases h
  | cons m ms ih =>
    rw [Document.membersSize]
    rcases List.mem_cons.mp h with rfl | hmem
    · dsimp only
      omega
    · have := ih hmem
      omega

/-- A form is read back from its document, with at least as much fuel as the size of the
document. -/
def ReadsBack (f : Form) : Prop :=
  ∀ {fuel : Nat}, f.toDocument.size ≤ fuel → ofDocument? fuel f.toDocument = some f

theorem ofItems?_toDocuments {fs : List Form} (h : ∀ f ∈ fs, f.ReadsBack) {fuel : Nat}
    (hfuel : Document.itemsSize (toDocuments fs) ≤ fuel) :
    ofItems? fuel (toDocuments fs) = some fs := by
  induction fs generalizing fuel with
  | nil => rw [toDocuments, ofItems?]
  | cons f fs ih =>
    rw [toDocuments, Document.itemsSize] at hfuel
    obtain ⟨fuel, rfl⟩ : ∃ n, fuel = n + 1 := ⟨fuel - 1, by omega⟩
    rw [toDocuments, ofItems?, h f List.mem_cons_self (by omega),
      ih (fun g hg => h g (List.mem_cons_of_mem _ hg)) (by omega)]
    rfl

theorem ofDocuments?_toDocuments {fs : List Form} (h : ∀ f ∈ fs, f.ReadsBack) {fuel : Nat}
    (hfuel : (Document.array (toDocuments fs)).size ≤ fuel) :
    ofDocuments? fuel (.array (toDocuments fs)) = some fs := by
  rw [Document.size] at hfuel
  obtain ⟨fuel, rfl⟩ : ∃ n, fuel = n + 1 := ⟨fuel - 1, by omega⟩
  rw [ofDocuments?]
  exact ofItems?_toDocuments h (by omega)

/-- A member of the object of a form needs less fuel than the form. -/
theorem size_member_le {f : Form} {key : String} {d : Document} {fuel : Nat}
    (h : lookup f.documentMembers key = some d) (hfuel : f.toDocument.size ≤ fuel + 1) :
    d.size ≤ fuel := by
  have hlt := size_lt_of_mem (mem_of_lookup h)
  rw [toDocument_eq, Document.size] at hfuel
  omega

/-- **The document of a form is read as that form.** -/
theorem ofDocument?_toDocument {f : Form} (h : f.Everywhere FormLabel.IsProper) : f.ReadsBack := by
  induction f using Form.induct with
  | node f ih =>
    intro fuel hfuel
    have hpos : 1 ≤ f.toDocument.size := by
      rw [toDocument_eq, Document.size]
      omega
    obtain ⟨fuel, rfl⟩ : ∃ n, fuel = n + 1 := ⟨fuel - 1, by omega⟩
    have hbelow : ∀ g ∈ f.contents, g.ReadsBack := fun g hg => ih g hg (h.contents g hg)
    simp only [ofDocument?, nodeOf?_toDocument, labelOf?_documentMembers h.label,
      Option.bind_eq_bind, Option.bind_some]
    cases f with
    | empty l => rfl
    | flat p l =>
      have hp : (lookup (flat p l).documentMembers "primitive").bind primitiveOf? = some p :=
        primitiveOf?_name p
      simp only [nodeClass, hp]
      rfl
    | list width c l =>
      have hwidth :
          (lookup (list width c l).documentMembers "offsets").bind widthOf? = some width :=
        widthOf?_name width
      have hcontent : lookup (list width c l).documentMembers "content" = some c.toDocument := rfl
      have hread : ofDocument? fuel c.toDocument = some c :=
        hbelow c (List.mem_singleton_self c) (size_member_le hcontent hfuel)
      simp only [nodeClass, hwidth, hcontent, Option.bind_some, hread]
      rfl
    | option width c l =>
      have hwidth :
          (lookup (option width c l).documentMembers "index").bind widthOf? = some width :=
        widthOf?_name width
      have hcontent : lookup (option width c l).documentMembers "content" = some c.toDocument := rfl
      have hread : ofDocument? fuel c.toDocument = some c :=
        hbelow c (List.mem_singleton_self c) (size_member_le hcontent hfuel)
      simp only [nodeClass, hwidth, hcontent, Option.bind_some, hread]
      rfl
    | record cs keys l =>
      have hcontents : lookup (record cs keys l).documentMembers "contents"
        = some (.array (toDocuments cs)) := rfl
      have hkeys : fieldNamesOf? (lookup (record cs keys l).documentMembers "keys") = some keys :=
        fieldNamesOf?_eq keys
      have hread : ofDocuments? fuel (.array (toDocuments cs)) = some cs :=
        ofDocuments?_toDocuments hbelow (size_member_le hcontents hfuel)
      simp only [nodeClass, hcontents, hkeys, Option.bind_some, hread]
      rfl
    | union tags width cs l =>
      have htags :
          (lookup (union tags width cs l).documentMembers "tags").bind widthOf? = some tags :=
        widthOf?_name tags
      have hwidth : (lookup (union tags width cs l).documentMembers "index").bind widthOf?
        = some width := widthOf?_name width
      have hcontents : lookup (union tags width cs l).documentMembers "contents"
        = some (.array (toDocuments cs)) := rfl
      have hread : ofDocuments? fuel (.array (toDocuments cs)) = some cs :=
        ofDocuments?_toDocuments hbelow (size_member_le hcontents hfuel)
      simp only [nodeClass, htags, hwidth, hcontents, Option.bind_some, hread]
      rfl

/-! ### Forms of texts -/

theorem itemsHaveWords_strings (ks : List String) :
    Document.itemsHaveWords (ks.map .string) = true := by
  induction ks with
  | nil => rfl
  | cons k ks ih => rw [List.map_cons, Document.itemsHaveWords, ih]; rfl

theorem membersHaveWords_iff {ms : List (String × Document)} :
    Document.membersHaveWords ms = true ↔ ∀ e ∈ ms, e.2.hasWords = true := by
  induction ms with
  | nil => simp [Document.membersHaveWords]
  | cons m ms ih =>
    obtain ⟨k, v⟩ := m
    simp [Document.membersHaveWords, ih]

theorem itemsHaveWords_toDocuments {fs : List Form}
    (h : ∀ f ∈ fs, f.toDocument.hasWords = true) :
    Document.itemsHaveWords (toDocuments fs) = true := by
  induction fs with
  | nil => rfl
  | cons f fs ih =>
    rw [toDocuments, Document.itemsHaveWords, h f List.mem_cons_self,
      ih fun g hg => h g (List.mem_cons_of_mem _ hg)]
    rfl

theorem hasWords_labelMembers {l : FormLabel} (h : l.HasWords) :
    ∀ e ∈ labelMembers l, e.2.hasWords = true := by
  intro e he
  rcases List.mem_append.mp he with he | he
  · split_ifs at he
    · cases he
    · cases List.mem_singleton.mp he
      exact membersHaveWords_iff.mpr h
  · cases List.mem_singleton.mp he
    cases l.key? <;> rfl

/-- The numbers of the document of a form are those of its annotations. -/
theorem hasWords_toDocument {f : Form} (h : f.Everywhere FormLabel.HasWords) :
    f.toDocument.hasWords = true := by
  induction f using Form.induct with
  | node f ih =>
    have hbelow : ∀ g ∈ f.contents, g.toDocument.hasWords = true :=
      fun g hg => ih g hg (h.contents g hg)
    have hown : ∀ e ∈ f.ownMembers, e.2.hasWords = true := by
      cases f with
      | empty l | flat p l => simp [ownMembers, Document.hasWords]
      | list width c l | option width c l =>
        have hc := hbelow c (List.mem_singleton_self c)
        simpa [ownMembers, Document.hasWords] using hc
      | record cs keys l =>
        have hcs : Document.itemsHaveWords (toDocuments cs) = true :=
          itemsHaveWords_toDocuments hbelow
        cases keys <;>
          simpa [ownMembers, Document.hasWords, itemsHaveWords_strings] using hcs
      | union tags width cs l =>
        have hcs : Document.itemsHaveWords (toDocuments cs) = true :=
          itemsHaveWords_toDocuments hbelow
        simpa [ownMembers, Document.hasWords] using hcs
    rw [toDocument_eq, Document.hasWords, membersHaveWords_iff]
    intro e he
    rcases List.mem_append.mp he with he | he
    · exact hown e he
    · exact hasWords_labelMembers h.label e he

theorem classByName_toDocument (f : Form) : classByName f.toDocument = true := by
  have hnames : namesClass (.string f.className) = true := by
    rw [namesClass, Document.asString?, Option.bind_some, ofName?_className]
    rfl
  rw [toDocument_eq, classByName, lookup_class, Option.map_some, hnames]
  rfl

/-- **The text of a form is read back exactly if it nests less than 128 levels**, as long as all
numbers in the annotations are whole, by any library that does what it is said to do. -/
theorem ofText_text {lib : DocumentLibrary} (hlib : lib.IsDocumented) {f : Form}
    (hproper : f.Everywhere FormLabel.IsProper) (hwords : f.Everywhere FormLabel.HasWords) :
    (f.toDocument.nesting < 128 → ofTextBy lib (f.textBy lib) = .ok f) ∧
      (128 ≤ f.toDocument.nesting → ∃ fault, ofTextBy lib (f.textBy lib) = .error fault) := by
  have hdocument := hasWords_toDocument hwords
  refine ⟨fun hnest => ?_, fun hnest => ?_⟩
  · rw [ofTextBy, textBy, hlib.faithful hdocument hnest]
    simp only [classByName_toDocument, if_true, ofDocument?_toDocument hproper (Nat.le_refl _)]
    rfl
  · obtain ⟨failure, hfailure⟩ := hlib.limited hdocument hnest
    rw [ofTextBy, textBy, hfailure]
    exact ⟨_, rfl⟩

/-- **The text of a form is read back as the form**, annotations in their order, as long as all
numbers in the annotations are whole and the text nests less than 128 levels, by any library that
does what it is said to do.  So what is read back describes the same values, whatever the buffers
are. -/
theorem exists_ofText_text {lib : DocumentLibrary} (hlib : lib.IsDocumented) {f : Form}
    (hproper : f.Everywhere FormLabel.IsProper) (hwords : f.Everywhere FormLabel.HasWords)
    (hnest : f.toDocument.nesting < 128) : ∃ g, ofTextBy lib (f.textBy lib) = .ok g ∧ g = f ∧
      ∀ (length : Nat) (table : Buffers) (partition : String),
        g.toValues length table partition = f.toValues length table partition := by
  have hread := (ofText_text hlib hproper hwords).1 hnest
  exact ⟨f, hread, rfl, fun _ _ _ => rfl⟩

/-- A record with annotations, one of them an object, below a list without a key. -/
theorem exists_ofText_text_annotated :
    let label : FormLabel := ⟨[("unit", .string "m\"s"), ("__record__", .object [("a", .null),
      ("b", .array [.int (-3), .bool true])])], some "node1"⟩
    let f : Form := .list .i64 (.record [.flat (.time .datetime .month) {}, .empty {}]
      (some ["x", "é"]) label) {}
    ∃ g, ofText f.text = .ok g ∧ g = f ∧ ∀ (length : Nat) (table : Buffers) (partition : String),
      g.toValues length table partition = f.toValues length table partition := by
  intro label f
  have hleaf : ∀ g ∈ [.flat (.time .datetime .month) {}, .empty {}],
      Form.Everywhere FormLabel.IsProper g ∧ Form.Everywhere FormLabel.HasWords g := by
    intro g hg
    rcases List.mem_pair.mp hg with rfl | rfl <;>
      exact ⟨.intro FormLabel.isProper_nil nofun, .intro FormLabel.hasWords_nil nofun⟩
  have hlabel : label.IsProper ∧ label.HasWords := by
    refine ⟨⟨by decide, fun e he => ?_⟩, fun e he => ?_⟩
    all_goals
      rcases List.mem_pair.mp he with rfl | rfl <;> rfl
  refine exists_ofText_text DocumentLibrary.isDocumented_standard
    (.intro FormLabel.isProper_nil fun g hg => ?_)
    (.intro FormLabel.hasWords_nil fun g hg => ?_) (by decide)
  · rw [List.mem_singleton.mp hg]
    exact .intro hlabel.1 fun g hg => (hleaf g hg).1
  · rw [List.mem_singleton.mp hg]
    exact .intro hlabel.2 fun g hg => (hleaf g hg).2

end Form

end Columnar
