import Columnar.Proofs.Column.Renumbered
import Columnar.Proofs.Column.Runs
import Columnar.Proofs.Form.Access

/-!
# Wrapped columns

A column can be made one whose elements may be missing, or a union of one class, without a push.
The index of the wrapper is made of the complete elements alone.  That is all there is to a column
in which nothing is open: its wrapper has the same length, refuses the same closing pushes, and the
same values are read back of it.

Of a column in which a container is open the wrappers do not keep everything.  An optional column
takes the entry of the last complete element for that of the open one, of which there may be none,
and one element is missing from its index ever after; a union does not know that anything is open,
and refuses to close it.

## Main definitions

* `Column.Reached` — the columns that pushes lead to.
* `Column.readBack` — the values that are read back of a column.
* `Column.Finishes` — pushes that close what is open.
* `Column.CountsOpen`, `Column.KeptBy` — what a wrapper is to keep.

## Main results

* `Column.readBack_wrapOption`, `Column.readBack_wrapUnion` — wrapped values are read back.
* `Column.keptBy_wrapped_iff` — **a wrapper keeps a column if and only if nothing is open in it.**
-/

namespace Columnar

namespace Column

/-! ### What is read back -/

/-- The values that are read back of a column: those of a builder without annotations. -/
def readBack (c : Column) : Reading (List Value) :=
  let l := c.layout Builder.defaultPartition [] 0
  l.form.toValues c.length l.buffers Builder.defaultPartition

/-- The same values are read back of two columns. -/
def SameValues (c w : Column) : Prop := ∀ vals, w.readBack = .ok vals ↔ c.readBack = .ok vals

theorem SameValues.refl (c : Column) : SameValues c c := fun _ => Iff.rfl

end Column

/-! ### Places of elements that are all there -/

theorem placesFrom_replicate_some {α : Type} (a : α) (n m : Nat) :
    placesFrom n (List.replicate m (some a)) = (List.range' n m).map some := by
  induction m generalizing n with
  | zero => rfl
  | succ m ih => rw [List.replicate_succ, placesFrom, ih, List.range'_succ, List.map_cons]

namespace Form

variable {table : Buffers} {partition key : String} {content f : Form} {l : FormLabel} {n : Nat}

theorem sizeOfPlaces_range (role : String) (hn : (n : Int) ≤ maxInt64) :
    sizeOfPlaces partition f role 0 ((List.range n).map Int.ofNat) = .ok n := by
  have hlen : (List.replicate n (some ())).reduceOption.length = n := by simp [List.reduceOption]
  have h := sizeOfPlaces_placesFrom partition f role (List.replicate n (some ())) 0
    (by rwa [hlen, Nat.zero_add])
  rw [placesFrom_replicate_some, List.map_map, hlen, Nat.zero_add, ← List.range_eq_range'] at h
  exact h

theorem zip_zeros (n : Nat) :
    (List.replicate n (0 : Int)).zip ((List.range n).map Int.ofNat)
      = (List.range n).map fun i => (0, Int.ofNat i) :=
  List.ext_getElem (by simp) fun i _ _ => by simp

theorem sizesOfTagged_range :
    sizesOfTagged partition f [0] ((List.replicate n (0 : Int)).zip ((List.range n).map Int.ofNat))
      = .ok [n] := by
  have h := sizesOfTagged_entriesAfter partition f (List.nodup_singleton ()) (List.replicate n ())
    [] fun a _ => List.mem_singleton.mpr rfl
  rw [entriesAfter, ← ranks, ranks_replicate, List.map_replicate, List.idxOf_cons_self,
    List.nil_append, List.map_singleton, List.map_singleton, List.count_replicate_self] at h
  exact h

/-- A buffer of the size that is needed is read as a whole. -/
theorem buffer_whole {α : Type} {role : String} {elements : Elements α} {b : Buffer}
    {data : Array α} (hkey : f.key? = some key)
    (hb : lookup table (bufferName partition key role) = some b)
    (hdata : elements.ofBuffer? b = some data) (hn : data.size = n) :
    f.buffer table partition role elements n = .ok data := by
  subst hn
  rw [buffer_eq_ok hkey hb hdata (Nat.le_refl _)]
  simp

/-- Elements picked one after another are the column that they are picked from. -/
theorem picked_eq {items : Array Value} (pick : Nat → Value)
    (h : ∀ i (hi : i < items.size), pick i = items[i]) :
    ((List.range items.size).map pick).toArray = items := by
  refine Array.ext (by simp) fun i hi hi' => ?_
  simp only [List.getElem_toArray, List.getElem_map, List.getElem_range]
  exact h i hi'

/-- A reading goes on with what it has picked, which is all, and for which there is memory. -/
theorem bind_readColumn {pick : Array Value → Array Value}
    (h : ∀ items, items.size = n → pick items = items) :
    (readColumn table partition content n >>= fun items => do
      ensure (n ≤ maxValues)
      return pick items) = readColumn table partition content n := by
  cases hread : readColumn table partition content n with
  | error e => rfl
  | ok items =>
    rw [ok_bind, ensure_bind (le_maxValues_of_readColumn hread),
      h items (readColumn_shows content n items hread).1]
    rfl

/-- Elements that may be missing, though none is. -/
theorem readColumn_allPresent (hkey : l.key? = some key)
    (hb : lookup table (bufferName partition key "index")
      = some (.int64 ((Column.allPresent n).map Column.placeInt)))
    (hn : (n : Int) ≤ maxInt64) :
    readColumn table partition (.option .i64 content l) n
      = readColumn table partition content n := by
  have hplaces : ((Column.allPresent n).map Column.placeInt).toList
      = (List.range n).map Int.ofNat := by
    simp [Column.allPresent, Column.placeInt, Function.comp_def]
  rw [readColumn, buffer_whole (f := .option .i64 content l) hkey hb rfl
    (by simp [Column.allPresent]), ok_bind, hplaces, sizeOfPlaces_range "index" hn, ok_bind]
  refine bind_readColumn fun items hitems => ?_
  subst hitems
  refine Eq.trans ?_ (picked_eq (fun i => itemAt items i) fun i hi => ?_)
  · apply Array.toList_inj.mp
    rw [Array.toList_map, hplaces, List.map_map]
    rfl
  · rw [itemAt, if_neg (by omega), Int.toNat_natCast, Array.getElem?_eq_getElem hi]
    rfl

/-- A union of one class. -/
theorem readColumn_singleClass (hkey : l.key? = some key)
    (htags : lookup table (bufferName partition key "tags")
      = some (.int8 ((Array.replicate n 0).map Int.ofNat)))
    (hindex : lookup table (bufferName partition key "index")
      = some (Column.sizesBuffer (Array.range n))) :
    readColumn table partition (.union .i8 .i64 [content] l) n
      = readColumn table partition content n := by
  have hzeros : ((Array.replicate n 0).map Int.ofNat).toList = List.replicate n (0 : Int) := by
    simp
  have hplaces : ((Array.range n).map Int.ofNat).toList = (List.range n).map Int.ofNat := by
    simp
  rw [readColumn, buffer_whole (f := .union .i8 .i64 [content] l) hkey htags rfl (by simp),
    ok_bind, buffer_whole (f := .union .i8 .i64 [content] l) hkey hindex rfl (by simp), ok_bind]
  dsimp only
  rw [hzeros, hplaces, List.map_singleton, sizesOfTagged_range, ok_bind, readSized, bind_assoc]
  refine bind_readColumn fun items hitems => ?_
  subst hitems
  refine Eq.trans ?_ (picked_eq (fun i => taggedItem [items] (0, (i : Int))) fun i hi => ?_)
  · rw [zip_zeros, List.map_map]
    rfl
  · simp [taggedItem, hi]

end Form

namespace Column

variable {o : Options} {c c' w : Column} {p : Push} {ps : List Push}

/-! ### Wrapped values -/

theorem length_wrapOption (c : Column) : c.wrapOption.length = c.length - c.isActive.toNat := by
  simp [wrapOption, allPresent, length]

theorem length_wrapUnion (c : Column) : c.wrapUnion.length = c.length := by
  simp [wrapUnion, length]

/-- The values that are read back of a layout under other numbers, from more buffers. -/
theorem readBack_eq_ok_iff {table : Buffers} {next : Nat} {vals : List Value}
    (hst : Stored table (c.layout Builder.defaultPartition [] next).buffers) :
    ((Form.readColumn table Builder.defaultPartition
      (c.layout Builder.defaultPartition [] next).form c.length).map Array.toList = .ok vals)
      ↔ c.readBack = .ok vals := by
  have hown := stored_layout Builder.defaultPartition c [] 0
  exact ⟨(gives_layout c plain_nil hst hown c.length).map vals,
    (gives_layout c plain_nil hown hst c.length).map vals⟩

/-- The values of a column in which nothing is open are read back of its optional column. -/
theorem readBack_wrapOption (hc : c.isActive = false) (hlen : (c.length : Int) ≤ maxInt64) :
    SameValues c c.wrapOption := by
  intro vals
  have hst := stored_layout Builder.defaultPartition c.wrapOption [] 0
  have hlength : c.wrapOption.length = c.length := by simp [length_wrapOption, hc]
  have htake : (allPresent c.length).take c.wrapOption.length = allPresent c.length := by
    simp [hlength, allPresent]
  have hindex := hst.head
  rw [← wrapOption, htake] at hindex
  rw [← readBack_eq_ok_iff hst.tail, readBack, Form.toValues, hlength]
  exact iff_of_eq (congrArg (fun x => x.map Array.toList = .ok vals)
    (Form.readColumn_allPresent rfl hindex hlen))

/-- The values of a column are read back of its union. -/
theorem readBack_wrapUnion (c : Column) : SameValues c c.wrapUnion := by
  intro vals
  have hst := stored_layout Builder.defaultPartition c.wrapUnion [] 0
  have hlength := length_wrapUnion c
  have htags := hst.head
  have hindex := hst.tail.head
  rw [← wrapUnion, hlength] at htags hindex
  have hzeros : (Array.replicate c.length 0).take c.length = Array.replicate c.length 0 := by simp
  have hplaces : (Array.range c.length).take c.length = Array.range c.length := by simp
  rw [hzeros] at htags
  rw [hplaces] at hindex
  rw [← readBack_eq_ok_iff hst.tail.tail.left, readBack, Form.toValues, hlength]
  exact iff_of_eq (congrArg (fun x => x.map Array.toList = .ok vals)
    (Form.readColumn_singleClass rfl htags hindex))

/-! ### What a wrapper is to keep -/

/-- Columns that pushes lead to, taken or refused. -/
inductive Reached (o : Options) : Column → Prop
  /-- Before any push. -/
  | new : Reached o (.unknown 0)
  /-- A push that is taken. -/
  | taken {c c' : Column} {p : Push} (h : Reached o c) (hp : push o c p = .ok c') : Reached o c'
  /-- A push that is refused. -/
  | refused {c : Column} {p : Push} {r : Refused Column} (h : Reached o c)
      (hp : push o c p = .error r) : Reached o r.state

/-- Pushes that are taken until nothing is open any more. -/
inductive Finishes (o : Options) : Column → List Push → Column → Prop
  /-- Nothing is open. -/
  | done {c : Column} (h : c.isActive = false) : Finishes o c [] c
  /-- A push into what is open. -/
  | push {c c₁ c' : Column} {p : Push} {ps : List Push} (hopen : c.isActive = true)
      (hp : c.push o p = .ok c₁) (h : Finishes o c₁ ps c') : Finishes o c (p :: ps) c'

/-- A wrapper in which something is open has an entry for it, which its length leaves out. -/
def CountsOpen : Column → Prop
  | .option index content => content.isActive.toNat ≤ index.size
  | .union tags _ _ current => current.isSome.toNat ≤ tags.size
  | _ => True

/-- A column keeps what another one is. -/
structure KeptBy (o : Options) (c w : Column) : Prop where
  /-- As many elements are complete. -/
  length : w.length = c.length
  /-- They can be counted. -/
  countsOpen : w.CountsOpen
  /-- It is open if the other one is. -/
  isActive : w.isActive = c.isActive
  /-- The same closing pushes are taken. -/
  closes : ∀ p, p.closes?.isSome → ((∃ w', w.push o p = .ok w') ↔ ∃ c', c.push o p = .ok c')
  /-- The same values are read back. -/
  values : SameValues c w
  /-- Once what is open is finished, it is among them. -/
  finished : ∀ ps c', Finishes o c ps c' →
    ∃ w', Finishes o w ps w' ∧ w'.length = c'.length ∧ SameValues c' w'

/-! ### Closed columns -/

theorem isActive_wrapUnion (c : Column) : c.wrapUnion.isActive = false := rfl

/-- Where nothing is open, nothing can be closed. -/
theorem refuses_close (hc : c.isActive = false) (hp : p.closes?.isSome) :
    ¬ ∃ c', c.push o p = .ok c' := by
  have hunit : p.unitCode? = none := by cases p <;> first | rfl | cases hp
  have hbegins : ¬ p.Begins := by
    rintro (rfl | ⟨k, hk⟩)
    · cases hp
    · cases p <;> cases hk <;> cases hp
  rintro ⟨c', hc'⟩
  rw [push_idle hc hunit hbegins] at hc'
  cases hc'

/-- A column in which nothing is open is kept by one of the same values. -/
theorem keptBy_of_closed (hc : c.isActive = false) (hw : w.isActive = false)
    (hlength : w.length = c.length) (hcounts : w.CountsOpen) (hvalues : SameValues c w) :
    KeptBy o c w := by
  refine ⟨hlength, hcounts, hw.trans hc.symm,
    fun p hp => iff_of_false (refuses_close hw hp) (refuses_close hc hp), hvalues, ?_⟩
  intro ps c' hfinishes
  cases hfinishes with
  | done => exact ⟨w, .done hw, hlength, hvalues⟩
  | push hopen =>
    rw [hc] at hopen
    cases hopen

/-! ### Open columns -/

theorem countsOpen_wrapOption (hc : c.isActive = true) :
    c.wrapOption.CountsOpen ↔ 0 < c.length := by
  simp [wrapOption, CountsOpen, allPresent, hc, Nat.pos_iff_ne_zero, Nat.one_le_iff_ne_zero]

theorem unitCode?_of_push (hp : c.push o p = .ok c') : p.unitCode? = none := by
  cases p with
  | unknownUnit kind code =>
    rw [push] at hp
    cases hp
  | _ => rfl

/-- Pushes into what is open below pass through a wrapper. -/
theorem Finishes.option (index : Array (Option Nat)) (h : Finishes o c ps c') :
    Finishes o (.option index c) ps (.option index c') := by
  induction h with
  | done h => exact .done h
  | push hopen hp _ ih =>
    refine .push hopen ?_ ih
    rw [push_option_open (unitCode?_of_push hp) index hopen, hp]
    rfl

theorem Finishes.isActive (h : Finishes o c ps c') : c'.isActive = false := by
  induction h with
  | done h => exact h
  | push _ _ _ ih => exact ih

/-- What is open is one element more once it is finished. -/
theorem Finishes.length (hs : c.Sound) (hc : c.isActive = true) (h : Finishes o c ps c') :
    c'.length = c.length + 1 := by
  induction h with
  | done h =>
    rw [h] at hc
    cases hc
  | @push c c₁ c' p ps _ hp hrest ih =>
    have htakes := (push_eq_ok_iff hs).mp hp
    have hadd := htakes.length_add hs
    cases hactive : c₁.isActive with
    | true =>
      rw [ih (hs.takes htakes) hactive]
      rw [hactive, Bool.toNat_true] at hadd
      omega
    | false =>
      cases hrest with
      | done => rwa [hactive] at hadd
      | push hopen =>
        rw [hactive] at hopen
        cases hopen

theorem Reached.sound (h : Reached o c) : c.Sound := by
  induction h with
  | new => exact sound_unknown 0
  | taken _ hp ih => exact ih.takes ((push_eq_ok_iff ih).mp hp)
  | @refused c p r _ hp ih =>
    rwa [keeps_push o c p r hp]

/-! ### What wrappers keep -/

/-- **A wrapper keeps a column if and only if nothing is open in it.**  While something is open, an
optional column counts one element too few, before and after it is finished, and has nothing to
count if none is complete; a union takes no closing push. -/
theorem keptBy_wrapped_iff (h : Reached o c) (hlen : (c.length : Int) ≤ maxInt64) :
    (KeptBy o c c.wrapOption ↔ c.isActive = false) ∧
    (KeptBy o c c.wrapUnion ↔ c.isActive = false) ∧
    (c.isActive = true →
      c.wrapOption.length = c.length - 1 ∧ (c.wrapOption.CountsOpen ↔ 0 < c.length) ∧
      (∀ ps c', Finishes o c ps c' →
        ∃ w', Finishes o c.wrapOption ps w' ∧ w'.length + 1 = c'.length) ∧
      ∀ p, p.closes?.isSome → ¬ ∃ w', c.wrapUnion.push o p = .ok w') := by
  refine ⟨⟨fun hkept => ?_, fun hc => ?_⟩, ⟨fun hkept => hkept.isActive.symm, fun hc => ?_⟩,
    fun hc => ⟨?_, countsOpen_wrapOption hc, fun ps c' hfinishes => ?_,
      fun p hp => refuses_close (isActive_wrapUnion c) hp⟩⟩
  · by_contra hopen
    have hc : c.isActive = true := by simpa using hopen
    have hpos := (countsOpen_wrapOption hc).mp hkept.countsOpen
    have hlength := hkept.length
    rw [length_wrapOption, hc, Bool.toNat_true] at hlength
    omega
  · refine keptBy_of_closed hc hc ?_ ?_ (readBack_wrapOption hc hlen)
    · rw [length_wrapOption, hc]
      rfl
    · simp [wrapOption, CountsOpen, hc]
  · exact keptBy_of_closed hc (isActive_wrapUnion c) (length_wrapUnion c) (Nat.zero_le _)
      (readBack_wrapUnion c)
  · rw [length_wrapOption, hc]
    rfl
  · refine ⟨_, hfinishes.option (allPresent c.length), ?_⟩
    have hclosed := hfinishes.isActive
    rw [hfinishes.length h.sound hc]
    simp [length, hclosed, allPresent]

/-- An empty list, and nothing open. -/
theorem keptBy_wrapped_iff_closed :
    let c : Column := .list #[0, 0] (.unknown 0) false
    (Reached {} c ∧ (c.length : Int) ≤ maxInt64) ∧ KeptBy {} c c.wrapOption ∧
      KeptBy {} c c.wrapUnion := by
  intro c
  have hreached : Reached {} c :=
    .taken (.taken (.new (o := {})) (p := .beginList) rfl) (p := .endList) rfl
  have hlen : (c.length : Int) ≤ maxInt64 := by decide
  obtain ⟨hoption, hunion, -⟩ := keptBy_wrapped_iff hreached hlen
  exact ⟨⟨hreached, hlen⟩, hoption.mpr rfl, hunion.mpr rfl⟩

/-- An empty list, and another one that is open: the optional column has lost the first, and the
union is not open. -/
theorem not_keptBy_wrapped_open :
    let c : Column := .list #[0, 0] (.unknown 0) true
    Reached {} c ∧ (c.length = 1 ∧ c.isActive = true) ∧
      (c.wrapOption.length = 0 ∧ ¬ KeptBy {} c c.wrapOption) ∧
      (c.wrapUnion.isActive = false ∧ ¬ KeptBy {} c c.wrapUnion) := by
  intro c
  have hreached : Reached {} c := .taken (.taken (.taken (.new (o := {})) (p := .beginList) rfl)
    (p := .endList) rfl) (p := .beginList) rfl
  have hlost : c.wrapOption.length = 0 := length_wrapOption c
  refine ⟨hreached, ⟨rfl, rfl⟩, ⟨hlost, fun hkept => ?_⟩, rfl, fun hkept => ?_⟩
  · exact absurd (hlost.symm.trans hkept.length) Nat.zero_ne_one
  · exact absurd hkept.isActive Bool.false_ne_true

end Column

end Columnar
