import Mathlib.Data.List.Induction
import Mathlib.Data.List.Nodup
import Columnar.Document

/-!
# Ordered tables and lists without repeats

The keys of an ordered table stand in the order in which they were first set, each of them
once: they are what is left of all keys set when repeats are erased.

## Main results

* `List.eraseDups_concat`, `List.eraseDups_map_some`, `List.nodup_eraseDups` — lists from
  which repeats are erased.
* `keys_assign`, `keys_tableOf`, `nodup_keys_tableOf` — the keys of a table after an entry, and
  of a whole table.
* `tableOf_of_nodup` — entries under different keys are a table.
* `lookup_eq_none_iff`, `lookup_of_mem`, `lookup_map` — what is found in a table.
-/

namespace List

variable {α : Type*} [BEq α] [LawfulBEq α]

theorem eraseDups_concat (l : List α) (a : α) :
    (l ++ [a]).eraseDups = if a ∈ l then l.eraseDups else l.eraseDups ++ [a] := by
  rw [eraseDups_append]
  by_cases h : a ∈ l
  · rw [if_pos h, removeAll]
    simp [h]
  · rw [if_neg h, removeAll]
    simp [h, eraseDups_cons]

theorem nodup_eraseDups (l : List α) : l.eraseDups.Nodup := by
  induction l using List.reverseRecOn with
  | nil => exact nodup_nil
  | append_singleton l a ih =>
    rw [eraseDups_concat]
    split
    · exact ih
    · next h =>
      rw [← concat_eq_append, nodup_concat]
      exact ⟨fun hmem => h (mem_eraseDups.mp hmem), ih⟩

theorem eraseDups_replicate (n : Nat) (a : α) : (replicate (n + 1) a).eraseDups = [a] := by
  induction n with
  | zero => rfl
  | succ n ih => rw [replicate_succ', eraseDups_concat, if_pos (by simp), ih]

theorem eraseDups_map_some (l : List α) : (l.map some).eraseDups = l.eraseDups.map some := by
  induction l using List.reverseRecOn with
  | nil => rfl
  | append_singleton l a ih =>
    rw [map_append, map_singleton, eraseDups_concat, eraseDups_concat, ih]
    have hmem : some a ∈ l.map some ↔ a ∈ l := by simp
    simp only [hmem]
    split
    · rfl
    · rw [map_append, map_singleton]

end List

namespace Columnar

variable {α : Type}

/-- An entry at the end under a key that no entry has. -/
theorem nodup_keys_concat {entries : List (String × α)} {key : String}
    (h : (entries.map Prod.fst).Nodup) (hnew : key ∉ entries.map Prod.fst) (value : α) :
    ((entries ++ [(key, value)]).map Prod.fst).Nodup := by
  rw [List.map_append, List.map_singleton, ← List.concat_eq_append, List.nodup_concat]
  exact ⟨hnew, h⟩

theorem keys_assign (t : List (String × α)) (key : String) (value : α) :
    (assign t key value).map Prod.fst
      = if key ∈ t.map Prod.fst then t.map Prod.fst else t.map Prod.fst ++ [key] := by
  induction t with
  | nil => simp [assign]
  | cons e rest ih =>
    obtain ⟨k, v⟩ := e
    by_cases h : k = key
    · simp [assign, h]
    · have h' : ¬ key = k := fun e => h e.symm
      rw [assign, if_neg h, List.map_cons, ih]
      simp only [List.map_cons, List.mem_cons, h', false_or]
      split <;> rfl

theorem mem_assign {t : List (String × α)} {key : String} {value : α} {e : String × α}
    (h : e ∈ assign t key value) : e ∈ t ∨ e = (key, value) := by
  induction t with
  | nil => exact .inr (by simpa [assign] using h)
  | cons e' rest ih =>
    obtain ⟨k, v⟩ := e'
    rw [assign] at h
    split at h
    · next hk =>
      rcases List.mem_cons.mp h with rfl | h
      · exact .inr (by rw [hk])
      · exact .inl (List.mem_cons_of_mem _ h)
    · rcases List.mem_cons.mp h with rfl | h
      · exact .inl List.mem_cons_self
      · exact (ih h).imp_left (List.mem_cons_of_mem _)

theorem keys_tableOf (entries : List (String × α)) :
    (tableOf entries).map Prod.fst = (entries.map Prod.fst).eraseDups := by
  induction entries using List.reverseRecOn with
  | nil => rfl
  | append_singleton entries e ih =>
    rw [tableOf, List.foldl_append, List.foldl_cons, List.foldl_nil, ← tableOf, keys_assign, ih,
      List.map_append, List.map_singleton, List.eraseDups_concat]
    simp only [List.mem_eraseDups]

theorem nodup_keys_tableOf (entries : List (String × α)) :
    ((tableOf entries).map Prod.fst).Nodup := by
  rw [keys_tableOf]
  exact List.nodup_eraseDups _

theorem mem_of_mem_tableOf {entries : List (String × α)} {e : String × α}
    (h : e ∈ tableOf entries) : e ∈ entries := by
  induction entries using List.reverseRecOn with
  | nil => cases h
  | append_singleton entries e' ih =>
    rw [tableOf, List.foldl_append, List.foldl_cons, List.foldl_nil, ← tableOf] at h
    rcases mem_assign h with h | rfl
    · exact List.mem_append_left _ (ih h)
    · exact List.mem_append_right _ List.mem_cons_self

theorem assign_of_not_mem {t : List (String × α)} {key : String} (h : key ∉ t.map Prod.fst)
    (value : α) : assign t key value = t ++ [(key, value)] := by
  induction t with
  | nil => rfl
  | cons e rest ih =>
    obtain ⟨k, v⟩ := e
    rw [List.map_cons, List.mem_cons, not_or] at h
    rw [assign, if_neg (Ne.symm h.1), ih h.2, List.cons_append]

/-- Entries under different keys are a table. -/
theorem tableOf_of_nodup {entries : List (String × α)} (h : (entries.map Prod.fst).Nodup) :
    tableOf entries = entries := by
  induction entries using List.reverseRecOn with
  | nil => rfl
  | append_singleton entries e ih =>
    rw [List.map_append, List.nodup_append] at h
    have hnew : e.1 ∉ entries.map Prod.fst := fun hmem =>
      h.2.2 e.1 hmem e.1 (List.mem_singleton_self _) rfl
    rw [tableOf, List.foldl_append, List.foldl_cons, List.foldl_nil, ← tableOf, ih h.1,
      assign_of_not_mem hnew]

theorem lookup_eq_none_iff {t : List (String × α)} {key : String} :
    lookup t key = none ↔ key ∉ t.map Prod.fst := by
  induction t with
  | nil => simp
  | cons e rest ih =>
    obtain ⟨k, v⟩ := e
    by_cases h : k = key
    · simp [lookup, h]
    · have h' : ¬ key = k := fun e => h e.symm
      simp [lookup, h, h', ih]

theorem lookup_of_mem {t : List (String × α)} (hnd : (t.map Prod.fst).Nodup) {key : String}
    {value : α} (h : (key, value) ∈ t) : lookup t key = some value := by
  induction t with
  | nil => cases h
  | cons e rest ih =>
    obtain ⟨k, v⟩ := e
    rw [List.map_cons, List.nodup_cons] at hnd
    rcases List.mem_cons.mp h with heq | hmem
    · cases heq
      rw [lookup, if_pos rfl]
    · have hne : ¬ k = key := by
        rintro rfl
        exact hnd.1 (List.mem_map.mpr ⟨(k, value), hmem, rfl⟩)
      rw [lookup, if_neg hne, ih hnd.2 hmem]

theorem mem_of_lookup {t : List (String × α)} {key : String} {value : α}
    (h : lookup t key = some value) : (key, value) ∈ t := by
  induction t with
  | nil => cases h
  | cons e rest ih =>
    obtain ⟨k, v⟩ := e
    rw [lookup] at h
    split at h
    · next hk =>
      cases h
      rw [hk]
      exact List.mem_cons_self
    · exact List.mem_cons_of_mem _ (ih h)

theorem assign_map {β : Type} (f : α → β) (t : List (String × α)) (key : String) (value : α) :
    assign (t.map fun e => (e.1, f e.2)) key (f value)
      = (assign t key value).map fun e => (e.1, f e.2) := by
  induction t with
  | nil => rfl
  | cons e rest ih =>
    rw [List.map_cons, assign, assign]
    split
    · rfl
    · rw [ih, List.map_cons]

/-- A map of the entries keeps which of them a table has. -/
theorem tableOf_map {β : Type} (f : α → β) (entries : List (String × α)) :
    tableOf (entries.map fun e => (e.1, f e.2)) = (tableOf entries).map fun e => (e.1, f e.2) := by
  induction entries using List.reverseRecOn with
  | nil => rfl
  | append_singleton entries e ih =>
    simp only [tableOf, List.map_append, List.map_singleton, List.foldl_append, List.foldl_cons,
      List.foldl_nil] at ih ⊢
    rw [ih, assign_map]

/-- The entry of a key in a table whose entries are changed one by one. -/
theorem lookup_map {β : Type} (f : α → β) (t : List (String × α)) (key : String) :
    lookup (t.map fun e => (e.1, f e.2)) key = (lookup t key).map f := by
  induction t with
  | nil => rfl
  | cons e rest ih =>
    obtain ⟨k, v⟩ := e
    by_cases h : k = key <;> simp [lookup, h, ih]

end Columnar
