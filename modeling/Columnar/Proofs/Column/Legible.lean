import Columnar.Proofs.Column.Bounded
import Columnar.Proofs.Holding

/-!
# Columns of valid text

Bytes may be pushed as text that is none, and only reading finds out.  Whether the text of a
column is valid can be seen from the column alone, whatever has been pushed, refused or
cleared before.  A push that is taken adds to the text and keeps what was there; so a column
with valid text had valid text before, and took valid text.

## Main definitions

* `Column.Legible` — all strings of the UTF-8 columns of a tree are text.

## Main results

* `Column.Legible.of_takes` — before a push, text was valid if it is valid after it.
* `Builder.exists_holds_run` — **a builder with valid text holds values**, by whatever calls it
  has come to be.
-/

namespace Columnar

theorem Push.isText_of_encodeString {data : List UInt8} {s : String}
    (h : data = Utf8.encodeString s) : (Push.string .utf8 data).IsText := by
  subst h
  exact congrArg Utf8.encodeString (Utf8.lossy_encodeString s)

/-- What holds of all of a list in which one is replaced held before, if it holds of the one that
was replaced. -/
theorem forall_of_set {α : Type} {P : α → Prop} {l : List α} {i : Nat} {a a' : α}
    (h : ∀ b ∈ l.set i a', P b) (ha : l[i]? = some a) (hback : P a' → P a) : ∀ b ∈ l, P b := by
  intro b hb
  obtain ⟨hi, rfl⟩ := List.getElem?_eq_some_iff.mp ha
  obtain ⟨j, hj, rfl⟩ := List.mem_iff_getElem.mp hb
  by_cases hij : i = j
  · subst hij
    exact hback (h _ (List.mem_set hi a'))
  · refine h _ (List.mem_iff_getElem.mpr ⟨j, by rwa [List.length_set], ?_⟩)
    exact List.getElem_set_ne hij _

/-- No offset lies behind the last one. -/
theorem IsOffsets.le_total {offsets : Array Nat} {total i x : Nat} (h : IsOffsets offsets total)
    (hx : offsets[i]? = some x) : x ≤ total := by
  obtain ⟨before, rfl⟩ := Array.back?_eq_some_iff.mp h.last
  have hsorted := h.sorted
  have hmem : x ∈ (before.push total).toList := by
    rw [← Array.getElem?_toList] at hx
    exact List.mem_of_getElem? hx
  rw [Array.toList_push] at hsorted hmem
  rcases List.mem_append.mp hmem with hmem | hmem
  · exact (List.pairwise_append.mp hsorted).2.2 x hmem total (List.mem_singleton_self _)
  · exact Nat.le_of_eq (List.mem_singleton.mp hmem)

namespace Column

/-- The strings of a column of UTF-8 strings are text. -/
def NodeLegible : Column → Prop
  | .string .utf8 offsets data =>
    ∀ i bytes, stringAt? offsets data i = some bytes → ∃ s, bytes = Utf8.encodeString s
  | _ => True

/-- All strings of the UTF-8 columns of a tree are text. -/
def Legible (c : Column) : Prop := ∀ d, IsNode d c → d.NodeLegible

namespace Legible

variable {c : Column}

theorem intro (h : c.NodeLegible) (hc : ∀ d ∈ c.children, d.Legible) : c.Legible := by
  intro d hd
  cases hd with
  | root => exact h
  | child hmem he => exact hc _ hmem d he

theorem node (h : c.Legible) : c.NodeLegible := h c (.root c)

theorem children (h : c.Legible) : ∀ d ∈ c.children, d.Legible :=
  fun _ hd e he => h e (.child hd he)

/-- A column that is no column of strings. -/
theorem of_children (h : ∀ encoding, c.class? ≠ some (.string encoding))
    (hc : ∀ d ∈ c.children, d.Legible) : c.Legible := by
  refine .intro ?_ hc
  cases c with
  | string encoding offsets data => exact absurd rfl (h encoding)
  | _ => trivial

end Legible

theorem legible_unknown (n : Nat) : (unknown n).Legible := .intro trivial nofun

variable {o : Options} {p : Push} {c : Column}

/-! ### Elements that begin -/

theorem isText_of_elementClass {k : ElementClass} (hp : p.elementClass? = some k)
    (hk : ∀ encoding, k ≠ .string encoding) : p.IsText := by
  cases p with
  | string encoding data => exact absurd (Option.some.inj hp).symm (hk encoding)
  | _ => trivial

theorem isText_of_first (h : (first o p).Legible) : p.IsText := by
  cases p with
  | string encoding data =>
    cases encoding with
    | utf8 =>
      obtain ⟨s, hs⟩ := h.node 0 data (by simp [stringAt?])
      exact Push.isText_of_encodeString hs
    | bytes => trivial
  | _ => trivial

theorem isText_of_afterNulls {n : Nat} (h : (afterNulls n (first o p)).Legible) : p.IsText := by
  unfold afterNulls at h
  split at h
  · exact isText_of_first h
  · exact isText_of_first (h.children _ (List.mem_singleton_self _))

/-- One more string leaves those before it where they are. -/
theorem stringAt?_push {offsets : Array Nat} {data : Array UInt8} {bytes item : List UInt8}
    {i : Nat} (h : IsOffsets offsets data.size) (hitem : stringAt? offsets data i = some item) :
    stringAt? (offsets.push (data ++ bytes).size) (data ++ bytes) i = some item := by
  unfold stringAt? at hitem
  split at hitem
  · next start stop hstart hstop =>
    have hi := (Array.getElem?_eq_some_iff.mp hstart).1
    have hj := (Array.getElem?_eq_some_iff.mp hstop).1
    have hle := h.le_total hstop
    rw [stringAt?, Array.getElem?_push_lt hi, Array.getElem?_push_lt hj,
      ← Array.getElem?_eq_getElem hi, ← Array.getElem?_eq_getElem hj, hstart, hstop]
    have hextract : (data ++ bytes).extract start stop = data.extract start stop := by
      apply Array.toList_inj.mp
      simp [List.extract_eq_take_drop, List.drop_append, List.take_append]
      omega
    simp only [hextract]
    exact hitem
  · cases hitem

/-- The last string is the one that was pushed. -/
theorem stringAt?_last {offsets : Array Nat} {data : Array UInt8} {bytes : List UInt8}
    (h : IsOffsets offsets data.size) :
    stringAt? (offsets.push (data ++ bytes).size) (data ++ bytes) (offsets.size - 1)
      = some bytes := by
  have hsize := h.size_pos
  have hlast : offsets[offsets.size - 1]? = some data.size := h.last
  rw [stringAt?, Nat.sub_add_cancel hsize, Array.getElem?_push_size,
    Array.getElem?_push_lt (by omega), ← Array.getElem?_eq_getElem, hlast]
  have hextract : ((data ++ bytes).extract data.size (data ++ bytes).size).toList = bytes := by
    simp [List.extract_eq_take_drop, ← Array.length_toList]
  exact congrArg some hextract

theorem Legible.of_accept {k : ElementClass} (hs : c.Sound) (hp : p.elementClass? = some k)
    (hk : c.class? = some k) (h : (c.accept p).Legible) : c.Legible ∧ p.IsText := by
  have hchildren : ∀ d ∈ c.children, d.Legible := by
    rw [← children_accept c p]
    exact h.children
  by_cases hstring : ∃ encoding, k = .string encoding
  · obtain ⟨encoding, rfl⟩ := hstring
    cases c with
    | string encoding' offsets data =>
      cases hk
      cases p with
      | string encoding' bytes =>
        cases hp
        cases encoding with
        | bytes => exact ⟨.intro trivial hchildren, trivial⟩
        | utf8 =>
          have hoffsets : IsOffsets offsets data.size := hs.node
          obtain ⟨s, hbytes⟩ := h.node _ bytes (stringAt?_last hoffsets)
          refine ⟨.intro ?_ hchildren, Push.isText_of_encodeString hbytes⟩
          exact fun i item hitem => h.node i item (stringAt?_push hoffsets hitem)
      | _ => cases hp
    | _ => cases hk
  · refine ⟨.of_children ?_ hchildren, isText_of_elementClass hp fun e he => hstring ⟨e, he⟩⟩
    intro encoding he
    rw [hk] at he
    exact hstring ⟨encoding, Option.some.inj he⟩

theorem Legible.of_fillSlot {row : Nat} (h : (fillSlot row c).Legible) : c.Legible := by
  rcases fillSlot_eq row c with he | ⟨he, -⟩
  · rwa [he] at h
  · rw [he] at h
    rcases kind_cases c with ⟨n, rfl⟩ | ⟨index, content, rfl⟩ | ⟨hu, ho⟩
    · exact legible_unknown n
    · exact .intro trivial h.children
    · rw [appendNull_of_kind hu ho] at h
      exact h.children _ (List.mem_singleton_self _)

/-! ### Pushes -/

/-- **Before a push, text was valid if it is valid after it**, and so is text that was pushed. -/
theorem Legible.of_takes {c' : Column} (h : Takes o c p c') (hs : c.Sound) (hc' : c'.Legible) :
    c.Legible ∧ p.IsText := by
  induction h with
  | unknown_null n => exact ⟨legible_unknown n, trivial⟩
  | unknown_first n => exact ⟨legible_unknown n, isText_of_afterNulls hc'⟩
  | option_null => exact ⟨.intro trivial hc'.children, trivial⟩
  | @option_present _ content _ _ _ _ _ _ ih | @option_open _ content _ _ _ _ ih =>
    obtain ⟨hcontent, htext⟩ := ih (hs.children content (List.mem_singleton_self _))
      (hc'.children _ (List.mem_singleton_self _))
    exact ⟨.intro trivial (List.forall_mem_singleton.mpr hcontent), htext⟩
  | first_null => exact ⟨hc'.children _ (List.mem_singleton_self _), trivial⟩
  | own _ hp hk => exact Legible.of_accept hs hp hk hc'
  | other =>
    exact ⟨hc'.children _ List.mem_cons_self,
      isText_of_first (hc'.children _ (List.mem_append_right [_] (List.mem_singleton_self _)))⟩
  | list_end => exact ⟨.intro trivial hc'.children, trivial⟩
  | @list_item _ content _ _ _ ih =>
    obtain ⟨hcontent, htext⟩ := ih (hs.children content (List.mem_singleton_self _))
      (hc'.children _ (List.mem_singleton_self _))
    exact ⟨.intro trivial (List.forall_mem_singleton.mpr hcontent), htext⟩
  | tuple_index => exact ⟨.intro trivial hc'.children, trivial⟩
  | tuple_end =>
    refine ⟨.intro trivial fun d hd => ?_, trivial⟩
    exact .of_fillSlot (hc'.children _ (List.mem_map_of_mem hd))
  | tuple_slot hi _ _ ih =>
    have hnew := ih (hs.children _ (List.mem_of_getElem? hi))
    refine ⟨.intro trivial (forall_of_set hc'.children hi fun h => (hnew h).1), ?_⟩
    exact (hnew (hc'.children _ (List.mem_set (List.getElem?_eq_some_iff.mp hi).1 _))).2
  | record_field => exact ⟨.intro trivial hc'.children, trivial⟩
  | record_new =>
    refine ⟨.intro trivial fun d hd => hc'.children d ?_, trivial⟩
    rw [Column.children, columnsOf_concat]
    exact List.mem_append_left _ hd
  | record_end =>
    have hall := hc'.children
    rw [Column.children, columnsOf_fillFields] at hall
    exact ⟨.intro trivial fun d hd => .of_fillSlot (hall _ (List.mem_map_of_mem hd)), trivial⟩
  | record_slot hi _ _ ih =>
    have hnew := ih (hs.children _ (List.mem_of_getElem? hi))
    have hall := hc'.children
    rw [Column.children, columnsOf_setField] at hall
    refine ⟨.intro trivial (forall_of_set hall hi fun h => (hnew h).1), ?_⟩
    exact (hnew (hall _ (List.mem_set (List.getElem?_eq_some_iff.mp hi).1 _))).2
  | union_own _ _ hi _ ih | union_open hi _ ih =>
    have hnew := ih (hs.children _ (List.mem_of_getElem? hi))
    refine ⟨.intro trivial (forall_of_set hc'.children hi fun h => (hnew h).1), ?_⟩
    exact (hnew (hc'.children _ (List.mem_set (List.getElem?_eq_some_iff.mp hi).1 _))).2
  | union_new =>
    refine ⟨.intro trivial fun d hd => hc'.children d (List.mem_append_left _ hd), ?_⟩
    exact isText_of_first (hc'.children _ (List.mem_append_right _ (List.mem_singleton_self _)))

end Column

namespace Builder

/-- **A builder with valid text holds values**, by whatever calls it has come to be: refused
pushes leave no text behind, and text that was cleared away need not have been valid. -/
theorem exists_holds_run (o : Options) (calls : List Request)
    (h : ((new o).run calls).root.Legible) : ∃ s, ((new o).run calls).Holds False s := by
  induction calls using List.reverseRecOn with
  | nil => exact ⟨.empty, holds_new False o⟩
  | append_singleton calls call ih =>
    rw [run_concat] at h ⊢
    have hsound := sound_run o calls
    cases call with
    | push p =>
      rcases after_push ((new o).run calls) p with ⟨b', hpush, hafter⟩ | ⟨-, hafter⟩
      · rw [hafter] at h ⊢
        have htakes := Column.takes_of_push hsound (push_eq_ok hpush).1
        obtain ⟨hbefore, htext⟩ := Column.Legible.of_takes htakes hsound h
        obtain ⟨s, hs⟩ := ih hbefore
        exact ⟨s.take p, hs.push htext hpush⟩
      · rw [hafter] at h ⊢
        exact ih h
    | clear => exact ⟨.empty, hsound.clear, Column.fits_clear _ _⟩
    | finalize | setParameter =>
      obtain ⟨s, hs⟩ := ih h
      exact ⟨s, hs.sound, hs.fits⟩

end Builder

end Columnar
