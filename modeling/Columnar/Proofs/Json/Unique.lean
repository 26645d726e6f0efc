import Columnar.Proofs.Json.Written

/-!
# Tokens have one meaning

JSON values that have the same tokens, one behind another, mean the same.  The first token of a
value tells its kind; behind an item or a member there is a comma or the end of the container, and
no value starts with either.

## Main results

* `Json.value?_congr` — what a value means is told from its tokens, whatever stands behind them.
* `Json.itemValues?_congr` — **tokens have one meaning.**
-/

namespace Columnar

theorem JsonNumber.number_congr {n n' : JsonNumber} (h : n.token = n'.token) :
    n.parts.number = n'.parts.number := by
  obtain ⟨hliteral, hshape⟩ := Token.number.inj h
  have hnumber := n.grammatical.ofLiteral?
  rw [hliteral, hshape, n'.grammatical.ofLiteral?] at hnumber
  exact (Option.some.inj hnumber).symm

theorem JsonString.text?_congr {s s' : JsonString} (h : s.token = s'.token) :
    s.text? = s'.text? := by
  obtain ⟨hcontent, hescapes⟩ := Token.string.inj h
  rw [text?, text?, hcontent, hescapes]

namespace Json

variable (o : ReadOptions)

/-- No value starts with a comma or the end of a container. -/
theorem tokens_append_ne (j : Json) {rest ts : List Token} {t : Token}
    (ht : t = .comma ∨ t = .arrayEnd ∨ t = .objectEnd) : j.tokens ++ rest ≠ t :: ts := by
  rcases ht with rfl | rfl | rfl <;> cases j <;> simp [tokens, JsonNumber.token, JsonString.token]

mutual

/-- What a value means is told from its tokens, whatever stands behind them. -/
theorem value?_congr : ∀ (j j' : Json) {rest rest' : List Token},
    j.tokens ++ rest = j'.tokens ++ rest' → j.value? o = j'.value? o ∧ rest = rest'
  | .null, j', _, _, h => by
    cases j' <;> simp_all [tokens, JsonNumber.token, JsonString.token]
  | .bool b, j', _, _, h => by
    cases j' <;> simp_all [tokens, JsonNumber.token, JsonString.token]
  | .number n, j', _, _, h => by
    cases j' with
    | number n' =>
      obtain ⟨hn, hrest⟩ := List.cons.inj h
      exact ⟨by rw [value?, value?, JsonNumber.number_congr hn], hrest⟩
    | _ => simp [tokens, JsonNumber.token, JsonString.token] at h
  | .string s, j', _, _, h => by
    cases j' with
    | string s' =>
      obtain ⟨hs, hrest⟩ := List.cons.inj h
      exact ⟨by rw [value?, value?, JsonString.text?_congr hs], hrest⟩
    | _ => simp [tokens, JsonNumber.token, JsonString.token] at h
  | .array items, j', _, _, h => by
    cases j' with
    | array items' =>
      simp only [tokens, ← joined_true, List.cons_append, List.append_assoc, List.nil_append,
        List.cons.injEq, true_and] at h
      obtain ⟨hvalues, hrest⟩ := joinedItems_congr true items items' h
      exact ⟨by rw [value?, value?, hvalues], hrest⟩
    | _ => simp [tokens, JsonNumber.token, JsonString.token] at h
  | .object members, j', _, _, h => by
    cases j' with
    | object members' =>
      simp only [tokens, ← joined_true, List.cons_append, List.append_assoc, List.nil_append,
        List.cons.injEq, true_and] at h
      obtain ⟨hvalues, hrest⟩ := joinedMembers_congr true members members' h
      exact ⟨by rw [value?, value?, hvalues], hrest⟩
    | _ => simp [tokens, JsonNumber.token, JsonString.token] at h
termination_by structural j => j

/-- What items mean is told from their tokens up to the end of the list. -/
theorem joinedItems_congr : ∀ (isFirst : Bool) (js js' : List Json) {rest rest' : List Token},
    joined isFirst (itemTokens js) ++ .arrayEnd :: rest
      = joined isFirst (itemTokens js') ++ .arrayEnd :: rest' →
      itemValues? o js = itemValues? o js' ∧ rest = rest'
  | _, [], [], _, _, h => ⟨rfl, (List.cons.inj h).2⟩
  | isFirst, [], j' :: js', _, _, h => by
    cases isFirst with
    | false => cases h
    | true =>
      simp only [itemTokens, joined, List.nil_append, List.append_assoc, if_true] at h
      exact absurd h.symm (j'.tokens_append_ne (.inr (.inl rfl)))
  | isFirst, j :: js, [], _, _, h => by
    cases isFirst with
    | false => cases h
    | true =>
      simp only [itemTokens, joined, List.nil_append, List.append_assoc, if_true] at h
      exact absurd h (j.tokens_append_ne (.inr (.inl rfl)))
  | isFirst, j :: js, j' :: js', _, _, h => by
    simp only [itemTokens, joined, List.append_assoc, List.append_cancel_left_eq] at h
    obtain ⟨hvalue, htail⟩ := value?_congr j j' h
    obtain ⟨hvalues, hrest⟩ := joinedItems_congr false js js' htail
    exact ⟨by rw [itemValues?, itemValues?, hvalue, hvalues], hrest⟩
termination_by structural _ js => js

/-- What members mean is told from their tokens up to the end of the record. -/
theorem joinedMembers_congr : ∀ (isFirst : Bool) (members members' : List (JsonString × Json))
    {rest rest' : List Token},
    joined isFirst (memberTokens members) ++ .objectEnd :: rest
      = joined isFirst (memberTokens members') ++ .objectEnd :: rest' →
      memberValues? o members = memberValues? o members' ∧ rest = rest'
  | _, [], [], _, _, h => ⟨rfl, (List.cons.inj h).2⟩
  | isFirst, [], (key', j') :: members', _, _, h => by
    cases isFirst <;> cases h
  | isFirst, (key, j) :: members, [], _, _, h => by
    cases isFirst <;> cases h
  | isFirst, (key, j) :: members, (key', j') :: members', _, _, h => by
    simp only [memberTokens, joined, List.append_assoc, List.append_cancel_left_eq,
      List.cons_append, List.cons.injEq, true_and] at h
    obtain ⟨hkey, h⟩ := h
    obtain ⟨hvalue, htail⟩ := value?_congr j j' h
    obtain ⟨hvalues, hrest⟩ := joinedMembers_congr false members members' htail
    refine ⟨?_, hrest⟩
    rw [memberValues?, memberValues?, JsonString.text?_congr hkey, hvalue, hvalues]
termination_by structural _ members => members

end

/-- **Tokens have one meaning.** -/
theorem itemValues?_congr {js js' : List Json} (h : js.flatMap tokens = js'.flatMap tokens) :
    itemValues? o js = itemValues? o js' := by
  induction js generalizing js' with
  | nil =>
    cases js' with
    | nil => rfl
    | cons j' js' => exact absurd h.symm (j'.tokens_append_ne_nil _)
  | cons j js ih =>
    cases js' with
    | nil => exact absurd h (j.tokens_append_ne_nil _)
    | cons j' js' =>
      rw [List.flatMap_cons, List.flatMap_cons] at h
      obtain ⟨hvalue, hrest⟩ := value?_congr o j j' h
      rw [itemValues?, itemValues?, hvalue, ih hrest]

end Json

end Columnar
