import Columnar.Proofs.Protocol

/-!
# Values that a builder takes

A builder that takes values whole, one after another, has as many elements more and nothing
open.  It takes none that nests deeper than its limit allows, and none in which a record has a
key twice.

## Main definitions

* `Value.depth`, `Value.KeysDistinct` — how deep a value nests, and records without double keys.
* `Level.Admits` — the stack machine and the depth limit admit pushes one after another.

## Main results

* `Value.depth_le_of_admits` — **what is admitted is not too deep and has no double keys.**
* `Builder.Opens.extend` — **what a builder is after values that it takes.**
-/

namespace Columnar

namespace Value

mutual

/-- How deep containers are nested in a value. -/
def depth : Value → Nat
  | .list items => itemsDepth items + 1
  | .tuple items => itemsDepth items + 1
  | .record _ fields => fieldsDepth fields + 1
  | _ => 0

/-- How deep containers are nested in values. -/
def itemsDepth : List Value → Nat
  | [] => 0
  | v :: vs => max (depth v) (itemsDepth vs)

/-- How deep containers are nested in the values of fields. -/
def fieldsDepth : List (String × Value) → Nat
  | [] => 0
  | (_, v) :: rest => max (depth v) (fieldsDepth rest)

end

mutual

/-- No record in a value has a key twice. -/
def KeysDistinct : Value → Prop
  | .list items => ItemsKeysDistinct items
  | .tuple items => ItemsKeysDistinct items
  | .record _ fields => (fields.map Prod.fst).Nodup ∧ FieldsKeysDistinct fields
  | _ => True

/-- No record in values has a key twice. -/
def ItemsKeysDistinct : List Value → Prop
  | [] => True
  | v :: vs => KeysDistinct v ∧ ItemsKeysDistinct vs

/-- No record in the values of fields has a key twice. -/
def FieldsKeysDistinct : List (String × Value) → Prop
  | [] => True
  | (_, v) :: rest => KeysDistinct v ∧ FieldsKeysDistinct rest

end

theorem itemsDepth_le_iff {vs : List Value} {n : Nat} :
    itemsDepth vs ≤ n ↔ ∀ v ∈ vs, v.depth ≤ n := by
  induction vs with
  | nil => simp [itemsDepth]
  | cons v vs ih => simp [itemsDepth, ih]

end Value

namespace Level

variable {limit : Nat} {levels : List Level} {ps qs : List Push}

/-- The stack machine has a step for each of some pushes, and none of them opens a container too
many. -/
def Admits (limit : Nat) : List Level → List Push → Prop
  | _, [] => True
  | levels, p :: ps => allows levels p = true ∧ (p.opens?.isSome → levels.length < limit) ∧
      Admits limit (next levels p) ps

theorem admits_append : Admits limit levels (ps ++ qs)
    ↔ Admits limit levels ps ∧ Admits limit (after levels ps) qs := by
  induction ps generalizing levels with
  | nil => simp [Admits]
  | cons p ps ih => simp [Admits, ih, and_assoc]

/-- What stands in a container that is opened is admitted in it. -/
theorem Admits.inside {p q : Push} {l : Level} (hp : opened? p = some l)
    (h : Admits limit levels (p :: ps ++ [q])) :
    levels.length < limit ∧ Admits limit (l :: levels) ps := by
  obtain ⟨-, hlimit, hrest⟩ := h
  have hopens : p.opens?.isSome := by
    cases p <;> first | rfl | cases hp
  have hnext : next levels p = l :: levels := by
    cases p <;> cases hp <;> rfl
  rw [hnext] at hrest
  exact ⟨hlimit hopens, (admits_append.mp hrest).1⟩

end Level

namespace Column

variable {o : Options} {d : Nat} {c c' : Column} {ps : List Push}

/-- A run of a column is admitted. -/
theorem TakesAll.admits (hs : c.Sound) (hd : d = c.levels.length) (h : TakesAll o d c ps c') :
    Level.Admits o.maxDepth c.levels ps := by
  induction h with
  | nil => trivial
  | @cons d c c₁ c' p ps hlimit hp hrest ih =>
    have hstep := hp.step hs
    refine ⟨hstep.1, fun hopens => hd ▸ hlimit hopens, ?_⟩
    rw [← hstep.2]
    refine ih (hs.takes hp) ?_
    rw [hstep.2, Level.length_next, hd]

end Column

namespace Value

open Level

variable {limit : Nat}

mutual

/-- **What is admitted is not too deep and has no double keys.** -/
theorem depth_le_of_admits : ∀ (v : Value) (levels : List Level),
    Admits limit levels v.pushes → levels.length ≤ limit →
      levels.length + v.depth ≤ limit ∧ v.KeysDistinct
  | .null, _ | .bool _, _ | .int _, _ | .real _, _ | .complex _, _ | .datetime _ _, _
  | .timedelta _ _, _ | .string _, _ | .bytes _, _ => fun _ hlevels => ⟨hlevels, trivial⟩
  | .list items, levels => by
    intro h _
    rw [pushes] at h
    obtain ⟨hlt, hinner⟩ := h.inside rfl
    obtain ⟨hdepth, hkeys⟩ := itemsDepth_le_of_admits items .list levels hinner hlt
    rw [depth]
    exact ⟨by omega, hkeys⟩
  | .tuple items, levels => by
    intro h _
    rw [pushes] at h
    obtain ⟨hlt, hinner⟩ := h.inside rfl
    obtain ⟨hdepth, hkeys⟩ := slotsDepth_le_of_admits items 0 _ levels hinner hlt
    rw [depth]
    exact ⟨by omega, hkeys⟩
  | .record name fields, levels => by
    intro h _
    rw [pushes] at h
    obtain ⟨hlt, hinner⟩ := h.inside rfl
    obtain ⟨hdepth, hnodup, -, hkeys⟩ := fieldsDepth_le_of_admits fields none ∅ levels hinner hlt
    rw [depth]
    exact ⟨by omega, hnodup, hkeys⟩
termination_by structural v => v

theorem itemsDepth_le_of_admits : ∀ (vs : List Value) (l : Level) (outer : List Level),
    Admits limit (l :: outer) (itemPushes vs) → outer.length < limit →
      outer.length + 1 + itemsDepth vs ≤ limit ∧ ItemsKeysDistinct vs
  | [], _, _ => fun _ hlt => ⟨hlt, trivial⟩
  | v :: vs, l, outer => by
    intro h hlt
    obtain ⟨hfirst, hrest⟩ := admits_append.mp h
    rw [(whole_pushes v).after_eq] at hrest
    obtain ⟨hdepth, hkeys⟩ := depth_le_of_admits v (l :: outer) hfirst hlt
    obtain ⟨hdepths, hkeyss⟩ := itemsDepth_le_of_admits vs _ outer hrest hlt
    rw [List.length_cons] at hdepth
    rw [itemsDepth]
    exact ⟨by omega, hkeys, hkeyss⟩
termination_by structural vs => vs

theorem slotsDepth_le_of_admits : ∀ (vs : List Value) (i : Nat) (l : Level) (outer : List Level),
    Admits limit (l :: outer) (slotPushes i vs) → outer.length < limit →
      outer.length + 1 + itemsDepth vs ≤ limit ∧ ItemsKeysDistinct vs
  | [], _, _, _ => fun _ hlt => ⟨hlt, trivial⟩
  | v :: vs, i, l, outer => by
    intro h hlt
    obtain ⟨hfirst, hrest⟩ := admits_append.mp h
    obtain ⟨-, -, hvalue⟩ := hfirst
    -- the choice of a slot leaves the tuple open
    obtain ⟨l', hselect⟩ : ∃ l', next (l :: outer) (.index i) = l' :: outer := by
      cases l <;> exact ⟨_, rfl⟩
    rw [after_cons, hselect, (whole_pushes v).after_eq] at hrest
    rw [hselect] at hvalue
    obtain ⟨hdepth, hkeys⟩ := depth_le_of_admits v (l' :: outer) hvalue hlt
    obtain ⟨hdepths, hkeyss⟩ := slotsDepth_le_of_admits vs (i + 1) _ outer hrest hlt
    rw [List.length_cons] at hdepth
    rw [itemsDepth]
    exact ⟨by omega, hkeys, hkeyss⟩
termination_by structural vs => vs

theorem fieldsDepth_le_of_admits : ∀ (fields : List (String × Value)) (selected : Option String)
    (filled : Finset String) (outer : List Level),
    Admits limit (.record selected filled :: outer) (fieldPushes fields) → outer.length < limit →
      outer.length + 1 + fieldsDepth fields ≤ limit ∧ (fields.map Prod.fst).Nodup ∧
        (∀ key ∈ fields.map Prod.fst, key ∉ filled) ∧ FieldsKeysDistinct fields
  | [], _, _, _ => fun _ hlt => ⟨hlt, .nil, nofun, trivial⟩
  | (key, v) :: rest, selected, filled, outer => by
    intro h hlt
    obtain ⟨hfirst, hrest⟩ := admits_append.mp h
    obtain ⟨hselects, -, hvalue⟩ := hfirst
    have hnew : key ∉ filled := of_decide_eq_true hselects
    rw [after_cons, (whole_pushes v).after_eq] at hrest
    obtain ⟨hdepth, hkeys⟩ := depth_le_of_admits v _ hvalue hlt
    -- the field that is filled takes no further value
    obtain ⟨hdepths, hnodup, hfresh, hkeyss⟩ :=
      fieldsDepth_le_of_admits rest (some key) (insert key filled) outer hrest hlt
    change outer.length + 1 + v.depth ≤ limit at hdepth
    rw [fieldsDepth, List.map_cons]
    refine ⟨by omega, ?_, ?_, hkeys, hkeyss⟩
    · refine List.nodup_cons.mpr ⟨fun hmem => ?_, hnodup⟩
      exact hfresh key hmem (Finset.mem_insert_self key filled)
    · intro key' hmem
      rcases List.mem_cons.mp hmem with rfl | hmem
      · exact hnew
      · exact fun hfilled => hfresh key' hmem (Finset.mem_insert_of_mem hfilled)
termination_by structural fields => fields

end

/-- Values outside of all containers. -/
theorem depth_le_of_admits_itemPushes {vs : List Value} (h : Admits limit [] (itemPushes vs)) :
    ∀ v ∈ vs, v.depth ≤ limit ∧ v.KeysDistinct := by
  induction vs with
  | nil => nofun
  | cons v vs ih =>
    obtain ⟨hfirst, hrest⟩ := admits_append.mp h
    rw [(whole_pushes v).after_eq] at hrest
    intro w hw
    rcases List.mem_cons.mp hw with rfl | hw
    · obtain ⟨hdepth, hkeys⟩ := depth_le_of_admits w [] hfirst (Nat.zero_le _)
      exact ⟨by simpa using hdepth, hkeys⟩
    · exact ih hrest w hw

end Value

namespace Column

variable {o : Options} {d : Nat} {c c' : Column}

/-- Values one after another leave nothing open and are that many elements more. -/
theorem TakesAll.length_itemPushes {vs : List Value} (hs : c.Sound) (ha : c.isActive = false)
    (h : TakesAll o d c (Value.itemPushes vs) c') :
    c'.isActive = false ∧ c'.length = c.length + vs.length := by
  induction vs generalizing d c with
  | nil =>
    cases h
    exact ⟨ha, rfl⟩
  | cons v vs ih =>
    obtain ⟨c₁, hfirst, hrest⟩ := takesAll_append.mp h
    obtain ⟨ha₁, hlen₁⟩ := hfirst.length_whole hs ha (Value.whole_pushes v)
    obtain ⟨ha', hlen⟩ := ih (hs.takesAll hfirst) ha₁ hrest
    rw [List.length_cons]
    exact ⟨ha', by omega⟩

end Column

namespace Builder

variable {b b' : Builder} {vs : List Value}

/-- **What a builder is after values that it takes**: it has as many elements more, nothing is
open, and no value was too deep or had a key twice. -/
theorem Opens.extend (h : b.Opens []) (hf : b.isFinalized = false)
    (hext : b.extend vs = .ok b') :
    b'.isActive = false ∧ b'.length = b.length + vs.length ∧
      ∀ v ∈ vs, v.depth ≤ b.options.maxDepth ∧ v.KeysDistinct := by
  have ha : b.root.isActive = false := (Column.levels_eq_nil_iff h.sound).mp h.levels_eq
  obtain ⟨root, htakes, rfl⟩ := (pushAll_eq_ok_iff h.sound hf).mp hext
  obtain ⟨hactive, hlength⟩ := htakes.length_itemPushes h.sound ha
  refine ⟨hactive, hlength, fun v hv => ?_⟩
  have hadmits := htakes.admits h.sound (by rw [h.levels_eq, h.depth_eq])
  rw [h.levels_eq] at hadmits
  exact Value.depth_le_of_admits_itemPushes hadmits v hv

end Builder

end Columnar
