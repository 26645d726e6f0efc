import Columnar.Proofs.Column.Rows

/-!
# What a column holds after a push

A push that a column takes does to what it holds what the push means: the value that is
complete with it comes last, and the containers under way are those after it.

## Main results

* `Column.fits_joinedBy`, `Column.fits_addChild` — elements of another class.
* `Column.Fits.takes` — the column after a push holds what the push assembles.
-/

namespace Columnar.Column

variable {o : Options} {fresh : Prop} {c : Column} {p : Push} {k : ElementClass} {vs : List Value}
  {stack : List Unfinished}

/-! ### Unions -/

/-- The number of values of a class is how often the class was seen. -/
theorem length_ofClass (m : Option ElementClass) (vs : List Value) :
    (Value.ofClass m vs).length = (seen vs []).count m := by
  induction vs with
  | nil => rfl
  | cons v vs ih =>
    simp only [seen, Value.ofClass, List.map_cons, List.count_cons, List.filter_cons] at ih ⊢
    by_cases hv : v.class? = m <;> simp [hv, ih]

theorem idxOf_of_findIdx? {children : List Column} {tag : Nat} {c : Column}
    (h : children.findIdx? (admits k) = some tag) (hc : children[tag]? = some c) :
    (children.map class?).idxOf (some k) = tag ∧ c.class? = some k := by
  obtain ⟨hlt, hadmits, hbefore⟩ := List.findIdx?_eq_some_iff_getElem.mp h
  have hget := (List.getElem?_eq_some_iff.mp hc).2
  refine ⟨?_, by rw [← hget]; exact admits_iff.mp hadmits⟩
  have hfun : (fun c : Column => c.class? == some k) = admits k := by
    funext d
    rw [Bool.eq_iff_iff, beq_iff_eq, admits_iff]
  rw [List.findIdx?_eq_some_iff_findIdx_eq] at h
  rw [List.idxOf, List.findIdx_map, ← h.2, ← hfun]
  rfl

/-- The first element of a class that no child has. -/
theorem fits_addChild {tags index : Array Nat} {children : List Column}
    (hp : p.elementClass? = some k) (htext : p.IsText)
    (htags : tags.toList = (seen vs []).map (children.map class?).idxOf)
    (hindex : index.toList = ranks (seen vs []))
    (hmem : ∀ m ∈ seen vs [], m ∈ children.map class?)
    (hclasses : fresh → children.map class? = (seen vs []).eraseDups)
    (hc : ∀ c ∈ children, Fits o fresh c (Value.ofClass c.class? vs) [])
    (hnew : some k ∉ children.map class?) :
    Fits o fresh (addChild tags index children (first o p)) (vs ++ p.value?.toList)
      p.unfinished?.toList := by
  have hseen := seen_begin vs hp
  have hk : (first o p).class? = some k := class?_first hp
  have hfirst : some k ∉ seen vs [] := fun h => hnew (hmem _ h)
  have hmap : (children ++ [first o p]).map class? = children.map class? ++ [some k] := by
    rw [List.map_append, List.map_singleton, hk]
  refine .union ?_ ?_ ?_ ?_ ?_ ?_
  -- tags: old classes keep theirs, the new one is numbered after them
  · rw [hseen, hmap, List.map_append, Array.toList_push, htags]
    congr 1
    · exact List.map_congr_left fun m hm => (List.idxOf_append_of_mem (hmem m hm)).symm
    · rw [List.map_singleton, List.idxOf_append_of_notMem hnew, List.idxOf_cons_self,
        List.length_map]
      rfl
  -- places: an element of a class not seen before is the first of it
  · rw [hseen, ranks_concat, Array.toList_push, hindex, List.count_eq_zero_of_not_mem hfirst]
  · rw [hseen, hmap]
    intro m hm
    rcases List.mem_append.mp hm with hm | hm
    · exact List.mem_append_left _ (hmem m hm)
    · exact List.mem_append_right _ hm
  · have hfits : Fits o fresh (first o p) _ _ := fits_first hp htext
    rw [← hfits.isActive, openChild]
    cases (first o p).isActive <;> rfl
  · intro hf
    rw [hseen, hmap, List.eraseDups_concat, if_neg hfirst, hclasses hf]
  · intro c hmemc
    rcases List.mem_append.mp hmemc with hmemc | hmemc
    -- an old child holds no element of the new class
    · have hne : some k ≠ c.class? := fun h => hnew (h ▸ List.mem_map_of_mem hmemc)
      obtain ⟨hvalue, hstack⟩ := ofClass_begin_of_ne hp hne
      rw [Value.ofClass_append, hvalue, hstack, List.append_nil]
      exact hc c hmemc
    · rw [List.mem_singleton.mp hmemc, hk]
      obtain ⟨hvalue, hstack⟩ := ofClass_begin hp
      have hnone : Value.ofClass (some k) vs = [] := by
        rw [← List.length_eq_zero_iff, length_ofClass, List.count_eq_zero_of_not_mem hfirst]
      rw [Value.ofClass_append, hnone, hvalue, hstack, List.nil_append]
      exact fits_first hp htext

/-- The first element of another class. -/
theorem fits_joinedBy {k' : ElementClass} (hp : p.elementClass? = some k) (htext : p.IsText)
    (hk : c.class? = some k') (hne : k' ≠ k) (h : Fits o fresh c vs []) (hvs : fresh → vs ≠ []) :
    Fits o fresh (c.joinedBy (first o p)) (vs ++ p.value?.toList) p.unfinished?.toList := by
  have hall : seen vs [] = List.replicate vs.length (some k') := by
    rw [List.eq_replicate_iff]
    exact ⟨length_seen_nil vs, h.all_class hk⟩
  -- a column of one class is a union with one child, to which another is added
  refine fits_addChild hp htext ?_ ?_ ?_ ?_ ?_ ?_
  · rw [hall, h.length, List.map_replicate, List.map_singleton, hk, List.idxOf_cons_self]
    simp
  · rw [hall, h.length, ranks_replicate, Array.toList_range]
  · rw [List.map_singleton, hk]
    intro m hm
    rw [h.all_class hk m hm]
    exact List.mem_singleton_self _
  · intro hf
    obtain ⟨v, rest, rfl⟩ := List.exists_cons_of_ne_nil (hvs hf)
    rw [hall, List.map_singleton, hk, List.length_cons, List.eraseDups_replicate]
  · intro d hd
    rw [List.mem_singleton.mp hd, hk]
    have hself : Value.ofClass (some k') vs = vs := by
      apply List.filter_eq_self.mpr
      intro v hv
      rw [h.all_class hk _ (class?_mem_seen hv [])]
      exact beq_self_eq_true _
    rwa [hself]
  · rw [List.map_singleton, hk, List.mem_singleton]
    exact fun h => hne (Option.some.inj h).symm

/-- One more element of a class that a child has. -/
theorem fits_union_own {tags index : Array Nat} {children : List Column} {tag : Nat}
    {c c' : Column} (hp : p.elementClass? = some k)
    (ht : children.findIdx? (admits k) = some tag) (hc : children[tag]? = some c)
    (hk' : c'.class? = some k) (hs : (Column.union tags index children none).Sound)
    (h : Fits o fresh (.union tags index children none) vs [])
    (hc' : Fits o fresh c (Value.ofClass (some k) vs) [] →
      Fits o fresh c' (Value.ofClass (some k) vs ++ p.value?.toList) p.unfinished?.toList) :
    Fits o fresh (.union (tags.push tag) (index.push c.length) (children.set tag c')
      (openTag tag c')) (vs ++ p.value?.toList) p.unfinished?.toList := by
  obtain ⟨hidx, hk⟩ := idxOf_of_findIdx? ht hc
  obtain ⟨htag, hget⟩ := List.getElem?_eq_some_iff.mp hc
  have hmap : (children.set tag c').map class? = children.map class? :=
    map_class?_set hc (hk'.trans hk.symm)
  have hseen := seen_begin vs hp
  cases h with
  | union htags hindex hmem hcurrent hclasses hfits =>
    have hfit := hfits c (List.mem_of_getElem? hc)
    rw [hk] at hfit
    have hkmem : some k ∈ children.map class? := by
      rw [← hk]
      exact List.mem_map_of_mem (List.mem_of_getElem? hc)
    -- the class has been seen, so the classes and their order stay
    refine .union ?_ ?_ ?_ ?_ ?_ ?_
    · rw [hseen, hmap, List.map_append, Array.toList_push, htags, List.map_singleton, hidx]
    · rw [hseen, ranks_concat, Array.toList_push, hindex, hfit.length, length_ofClass]
    · rw [hseen, hmap]
      intro m hm
      rcases List.mem_append.mp hm with hm | hm
      · exact hmem m hm
      · rw [List.mem_singleton.mp hm]
        exact hkmem
    · rw [← (hc' hfit).isActive, openTag]
      cases c'.isActive <;> rfl
    · intro hf
      have hseenk : some k ∈ seen vs [] := by
        rw [hclasses hf] at hkmem
        exact List.mem_eraseDups.mp hkmem
      rw [hseen, hmap, List.eraseDups_concat, if_pos hseenk, hclasses hf]
    · have hunion : UnionSound tags index children none := hs.node
      intro d hd
      rcases hunion.mem_set hc hd with rfl | ⟨hd, hdk⟩
      · obtain ⟨hvalue, hstack⟩ := ofClass_begin hp
        rw [hk', Value.ofClass_append, hvalue, hstack]
        exact hc' hfit
      · rw [hk] at hdk
        obtain ⟨hvalue, hstack⟩ := ofClass_begin_of_ne hp hdk
        rw [Value.ofClass_append, hvalue, hstack, List.append_nil]
        exact hfits d hd

/-- A push into the open child. -/
theorem fits_union_open {tags index : Array Nat} {children : List Column} {tag : Nat}
    {c c' : Column} (hc : children[tag]? = some c) (hclass : c'.class? = c.class?)
    (hs : (Column.union tags index children (some tag)).Sound)
    (h : Fits o fresh (.union tags index children (some tag)) vs stack)
    (hc' : ∀ {ws : List Value} {st : List Unfinished}, Fits o fresh c ws st →
      Fits o fresh c' (ws ++ (assemble st p).1.toList) (assemble st p).2) :
    Fits o fresh (.union tags index (children.set tag c') (openTag tag c'))
      (vs ++ (assemble stack p).1.toList) (assemble stack p).2 := by
  have hunion : UnionSound tags index children (some tag) := hs.node
  have hmap := map_class?_set hc hclass
  obtain ⟨htag, -⟩ := List.getElem?_eq_some_iff.mp hc
  obtain ⟨f, inner, rfl⟩ := h.exists_cons rfl
  cases h with
  | union htags hindex hmem hcurrent hclasses hfits =>
    -- the open container is of the class of the open child
    have hfit := hfits c (List.mem_of_getElem? hc)
    have hk : c.class? = some f.elementClass := by
      have ha := (hunion.active_iff tag c hc).mpr rfl
      rw [hfit.isActive, stackOf] at ha
      split at ha
      · next heq => exact heq.symm
      · cases ha
    have hstack : stackOf (some f.elementClass) (f :: inner) = f :: inner := if_pos rfl
    rw [hk, hstack] at hfit
    have hseen := seen_advance vs f inner p
    -- the element under way has its tag and its place already
    refine .union ?_ ?_ ?_ ?_ ?_ ?_
    · rw [hseen, hmap, htags]
    · rw [hseen, hindex]
    · rwa [hseen, hmap]
    · rw [← (hc' hfit).isActive, openTag]
      cases c'.isActive <;> rfl
    · rwa [hseen, hmap]
    · intro d hd
      rcases hunion.mem_set hc hd with rfl | ⟨hd, hdk⟩
      · obtain ⟨hvalue, hst⟩ := ofClass_advance f inner p
        rw [hclass, hk, Value.ofClass_append, hvalue, hst]
        exact hc' hfit
      · rw [hk] at hdk
        have hold := hfits d hd
        rw [stackOf, if_neg hdk] at hold
        obtain ⟨hvalue, hst⟩ := ofClass_advance_of_ne f inner p hdk
        rw [Value.ofClass_append, hvalue, hst, List.append_nil]
        exact hold

/-! ### Lists -/

/-- The end of the open list. -/
theorem fits_list_end {offsets : Array Nat} {content : Column} (ha : content.isActive = false)
    (h : Fits o fresh (.list offsets content true) vs stack) :
    Fits o fresh (.list (offsets.push content.length) content false)
      (vs ++ (assemble stack .endList).1.toList) (assemble stack .endList).2 := by
  cases h with
  | @list_open _ _ _ items inner hk hoffsets hc =>
    obtain rfl := hc.stack_eq_nil ha
    have hk' := hk.advance .endList
    rw [assemble_close rfl] at hk' ⊢
    refine .list hk' ?_ ?_
    · rw [Array.toList_push, hoffsets, hc.length, List.length_append, List.length_flatMap,
        Option.toList_some, List.map_append, List.map_singleton, offsetsFrom_concat, Nat.zero_add]
      rfl
    · simpa [Unfinished.value, Value.items] using hc

/-- A push into the items of the open list. -/
theorem fits_list_item {offsets : Array Nat} {content content' : Column}
    (ht : Takes o content p content') (h : Fits o fresh (.list offsets content true) vs stack)
    (hc' : ∀ {ws : List Value} {st : List Unfinished}, Fits o fresh content ws st →
      Fits o fresh content' (ws ++ (assemble st p).1.toList) (assemble st p).2) :
    Fits o fresh (.list offsets content' true) (vs ++ (assemble stack p).1.toList)
      (assemble stack p).2 := by
  cases h with
  | @list_open _ _ _ items inner hk hoffsets hc =>
    have hk' := hk.advance p
    rw [assemble_inner (hc.inner_or_begins ht), Unfinished.deliver_list] at hk' ⊢
    simp only [Option.toList_none, List.append_nil] at hk' ⊢
    refine .list_open hk' hoffsets ?_
    rw [← List.append_assoc]
    exact hc' hc

/-! ### Every rule -/

/-- **The column after a push holds what the push assembles.** -/
theorem Fits.takes {c c' : Column} (h : Takes o c p c') (htext : p.IsText) (hs : c.Sound)
    (hfit : Fits o fresh c vs stack) :
    Fits o fresh c' (vs ++ (assemble stack p).1.toList) (assemble stack p).2 := by
  -- The induction is on the rules; a rule for an open container changes what is under way
  -- below it, so the values and the stack are free.
  induction h generalizing vs stack with
  | unknown_null n =>
    cases hfit
    exact fits_appendNull (sound_unknown n) (.unknown n)
  | unknown_first n hp =>
    cases hfit
    exact fits_afterNulls hp htext n
  | option_null ha =>
    obtain rfl := hfit.stack_eq_nil ha
    exact fits_appendNull hs hfit
  | @option_present index content content' p k ha hp h ih =>
    obtain rfl := hfit.stack_eq_nil ha
    exact fits_present hp hfit (ih htext (hs.children content (List.mem_singleton_self _)))
  | @option_open index content content' p ha h ih =>
    obtain ⟨f, inner, rfl⟩ := hfit.exists_cons ha
    cases hfit with
    | option hindex hnull hc =>
      refine .option (by rwa [seen_advance]) (fun hf => List.mem_append_left _ (hnull hf)) ?_
      rw [Value.present_append, present_advance]
      exact ih htext (hs.children content (List.mem_singleton_self _)) hc
  | first_null ha hu ho =>
    obtain rfl := hfit.stack_eq_nil ha
    exact fits_first_null hs hu ho hfit
  | own ha hp hk =>
    obtain rfl := hfit.stack_eq_nil ha
    exact fits_accept hp htext hk hfit
  | other ha hp hk hne =>
    obtain rfl := hfit.stack_eq_nil ha
    refine fits_joinedBy hp htext hk hne hfit fun hf hnil => hfit.seen_ne_nil hk hf ?_
    rw [hnil]
    rfl
  | list_end ha => exact fits_list_end ha hfit
  | @list_item offsets content content' p h ih =>
    exact fits_list_item h hfit fun hc =>
      ih htext (hs.children content (List.mem_singleton_self _)) hc
  | tuple_index ha => exact fits_tuple_index hs ha hfit
  | tuple_end ha => exact fits_tuple_end hs ha hfit
  | @tuple_slot slots n i c c' p hi hlen h ih =>
    exact fits_tuple_slot hi hlen h hfit fun hc =>
      ih htext (hs.children c (List.mem_of_getElem? hi)) hc
  | record_field ha hi hci hlen => exact fits_record_field hs ha hi hci hlen hfit
  | record_new ha hi => exact fits_record_new hs ha hi hfit
  | record_end ha => exact fits_record_end hs ha hfit
  | @record_slot name fields n i settled declared c c' p hci hlen h ih =>
    exact fits_record_slot hs hci hlen h hfit fun hc =>
      ih htext (hs.children c (List.mem_of_getElem? hci)) hc
  | @union_own tags index children tag c c' p k hp ht hc h ih =>
    obtain rfl := hfit.stack_eq_nil rfl
    have hk := (idxOf_of_findIdx? ht hc).2
    exact fits_union_own hp ht hc (h.class?_eq hk (.inr hp)) hs hfit fun hc' =>
      ih htext (hs.children c (List.mem_of_getElem? hc)) hc'
  | @union_new tags index children p k hp ht hlt =>
    obtain rfl := hfit.stack_eq_nil rfl
    cases hfit with
    | union htags hindex hmem hcurrent hclasses hc =>
      refine fits_addChild hp htext htags hindex hmem hclasses hc ?_
      intro hk
      obtain ⟨d, hd, hdk⟩ := List.mem_map.mp hk
      have hfalse := List.findIdx?_eq_none_iff.mp ht d hd
      rw [admits_iff.mpr hdk] at hfalse
      cases hfalse
  | @union_open tags index children tag c c' p hc h ih =>
    have hunion : UnionSound tags index children (some tag) := hs.node
    have hmem := List.mem_of_getElem? hc
    obtain ⟨k, hk⟩ := Option.isSome_iff_exists.mp (hunion.classes c hmem)
    have hk' := h.class?_eq hk (.inl ((hunion.active_iff tag c hc).mpr rfl))
    exact fits_union_open hc (hk'.trans hk.symm) hs hfit fun hc' =>
      ih htext (hs.children c hmem) hc'

end Columnar.Column
