import Columnar.Document.Library
import Columnar.Proofs.Document.Scalars

/-!
# Documents are read back as deep as reading goes

The text of a document is read back, arrays and objects included, as long as they nest no deeper
than reading goes; a text that nests deeper is refused.  Both follow from one recursion over the
document: the items before the one that is too deep are read, and what was to be read of that one
fails all the way up.

Each level of reading takes a character at least every other time, which is why twice the length
of a text is fuel enough.

Of a library of documents, all that is asked is that it is faithful within a limit of 128 levels:
a document whose numbers are whole is read back from its text if it nests less than 128 levels,
and refused if it nests deeper.  The library of the programs is such a library.

## Main definitions

* `Document.nesting` — how deep arrays and objects nest.
* `Document.hasWords` — all numbers are whole and of 64 bits.
* `DocumentLibrary.IsDocumented` — a library prints and reads as it is said to do.

## Main results

* `Document.read_text` — **a document is read back exactly if it nests within the limit.**
* `DocumentLibrary.isDocumented_standard` — **the library of the programs is such a library.**
-/

namespace Columnar.Document

mutual

/-- How deep arrays and objects nest in a document. -/
def nesting : Document → Nat
  | .array items => 1 + itemNesting items
  | .object members => 1 + memberNesting members
  | .null => 0
  | .bool _ => 0
  | .int _ => 0
  | .real _ => 0
  | .string _ => 0

/-- How deep the deepest of several items nests. -/
def itemNesting : List Document → Nat
  | [] => 0
  | x :: xs => max (nesting x) (itemNesting xs)

/-- How deep the deepest of several members nests. -/
def memberNesting : List (String × Document) → Nat
  | [] => 0
  | (_, x) :: rest => max (nesting x) (memberNesting rest)

end

mutual

/-- Whether all numbers of a document are whole and of 64 bits. -/
def hasWords : Document → Bool
  | .array items => itemsHaveWords items
  | .object members => membersHaveWords members
  | .int n => decide (FitsWord n)
  | .real _ => false
  | .null => true
  | .bool _ => true
  | .string _ => true

/-- Whether all numbers of several items are such. -/
def itemsHaveWords : List Document → Bool
  | [] => true
  | x :: xs => hasWords x && itemsHaveWords xs

/-- Whether all numbers of several members are such. -/
def membersHaveWords : List (String × Document) → Bool
  | [] => true
  | (_, x) :: rest => hasWords x && membersHaveWords rest

end

/-! ### How a document starts -/

variable {reals : RealLibrary}

theorem itemChars_cons_cons (x y : Document) (ys : List Document) :
    itemChars reals (x :: y :: ys) = x.chars reals ++ ',' :: itemChars reals (y :: ys) := rfl

theorem memberChars_cons_cons (key : String) (x : Document) (m : String × Document)
    (ms : List (String × Document)) : memberChars reals ((key, x) :: m :: ms)
      = stringChars key ++ ':' :: x.chars reals ++ ',' :: memberChars reals (m :: ms) := rfl

theorem skipBlanks_cons {c : Char} (h : isBlank c = false) (cs : List Char) :
    skipBlanks (c :: cs) = c :: cs := by
  rw [skipBlanks, List.dropWhile_cons_of_neg (by simp [h])]

/-- The first character of a document is neither a blank nor a closing bracket. -/
def Starts (cs : List Char) : Prop := ∃ c tail, cs = c :: tail ∧ isBlank c = false ∧ c ≠ ']'

theorem Starts.append {cs : List Char} (h : Starts cs) (rest : List Char) :
    Starts (cs ++ rest) := by
  obtain ⟨c, tail, rfl, hblank, hclose⟩ := h
  exact ⟨c, tail ++ rest, rfl, hblank, hclose⟩

theorem Starts.skipBlanks {cs : List Char} (h : Starts cs) : skipBlanks cs = cs := by
  obtain ⟨c, tail, rfl, hblank, -⟩ := h
  exact skipBlanks_cons hblank tail

theorem starts_cons {c : Char} (hblank : isBlank c = false) (hclose : c ≠ ']') (tail : List Char) :
    Starts (c :: tail) := ⟨c, tail, rfl, hblank, hclose⟩

theorem isBlank_of_isDigit {c : Char} (h : isDigit c = true) : isBlank c = false ∧ c ≠ ']' := by
  refine ⟨?_, ?_⟩
  · rw [isBlank, Bool.or_eq_false_iff, Bool.or_eq_false_iff, Bool.or_eq_false_iff]
    refine ⟨⟨⟨?_, ?_⟩, ?_⟩, ?_⟩
    all_goals
      apply beq_eq_false_iff_ne.mpr
      rintro rfl
      cases h
  · rintro rfl
    cases h

/-- A whole number starts with a minus or a digit. -/
theorem exists_intChars (n : Int) :
    ∃ c tail, intChars n = c :: tail ∧ (c = '-' ∨ isDigit c = true) := by
  unfold intChars
  split_ifs with hneg
  · exact ⟨_, _, rfl, .inl rfl⟩
  · cases hds : Nat.toDigits 10 n.natAbs with
    | nil => exact absurd hds Nat.toDigits_ne_nil
    | cons c cs =>
      have hc : c ∈ Nat.toDigits 10 n.natAbs := by rw [hds]; exact List.mem_cons_self
      exact ⟨c, cs, rfl, .inr (isDigit_of_mem_toDigits c hc)⟩

theorem starts_chars {d : Document} (h : d.hasWords = true) : Starts (d.chars reals) := by
  cases d with
  | null => exact starts_cons rfl (by decide) _
  | bool b => cases b <;> exact starts_cons rfl (by decide) _
  | int n =>
    obtain ⟨c, tail, hchars, hc⟩ := exists_intChars n
    rw [chars, hchars]
    rcases hc with rfl | hc
    · exact starts_cons rfl (by decide) _
    · exact starts_cons (isBlank_of_isDigit hc).1 (isBlank_of_isDigit hc).2 _
  | real x => cases h
  | string s => exact starts_cons rfl (by decide) _
  | array items => exact starts_cons rfl (by decide) _
  | object members => exact starts_cons rfl (by decide) _

theorem starts_itemChars {x : Document} (h : x.hasWords = true) (xs : List Document) :
    Starts (itemChars reals (x :: xs)) := by
  cases xs with
  | nil => exact starts_chars h
  | cons y ys => exact (starts_chars h).append _

/-! ### Steps of reading -/

variable {fuel depth : Nat} {rest : List Char}

theorem readValue_number {c : Char} (h : c = '-' ∨ isDigit c = true) (cs : List Char) :
    readValue (fuel + 1) depth (c :: cs) = readValue.scalar (readNumber (c :: cs)) := by
  have hblank : isBlank c = false := by
    rcases h with rfl | h
    · rfl
    · exact (isBlank_of_isDigit h).1
  rw [readValue, skipBlanks_cons hblank]
  split
  · rename_i heq
    cases heq
  case h_8 =>
    rename_i heq
    cases heq
    exact if_pos h
  -- no word, string or bracket starts like a number
  all_goals
    rename_i heq
    cases heq
    rcases h with h | h <;> cases h

theorem readValue_array {cs : List Char} (h : Starts cs) :
    readValue (fuel + 1) (depth + 1) ('[' :: cs)
      = (readItems fuel depth cs).map fun (xs, r) => (.array xs, r) := by
  obtain ⟨c, tail, rfl, hblank, hclose⟩ := h
  rw [readValue, skipBlanks_cons rfl]
  simp only [skipBlanks_cons hblank]
  split
  · rename_i heq
    exact absurd (List.cons.inj heq).1 hclose
  · rfl

theorem readValue_object {cs : List Char} (h : Starts cs) (hbrace : cs.head? ≠ some '\x7d') :
    readValue (fuel + 1) (depth + 1) ('\x7b' :: cs)
      = (readMembers fuel depth cs).map fun (ms, r) => (.object ms, r) := by
  obtain ⟨c, tail, rfl, hblank, -⟩ := h
  rw [readValue, skipBlanks_cons rfl]
  simp only [skipBlanks_cons hblank]
  split
  · rename_i heq
    rw [heq] at hbrace
    exact absurd rfl hbrace
  · rfl

/-! ### Reading back -/

section toOption

variable {ε α β : Type} {r : Except ε α}

theorem toOption_eq_some {a : α} : r.toOption = some a ↔ r = .ok a := by
  cases r <;> simp [Except.toOption]

theorem toOption_eq_none : r.toOption = none ↔ ∃ e, r = .error e := by
  cases r <;> simp [Except.toOption]

theorem toOption_map (f : α → β) : (r.map f).toOption = r.toOption.map f := by
  cases r <;> rfl

/-- A result that is there under one condition, carried on under another one. -/
theorem map_ite_some {p q : Prop} [Decidable p] [Decidable q] (f : α → β) (a : α) (h : p ↔ q) :
    (if p then some a else none).map f = if q then some (f a) else none := by
  by_cases hp : p
  · rw [if_pos hp, if_pos (h.mp hp), Option.map_some]
  · rw [if_neg hp, if_neg (hp ∘ h.mpr), Option.map_none]

end toOption

/-- The last item is read up to the closing bracket. -/
theorem readItems_last {x : Document} {cs : List Char}
    (h : readValue fuel depth cs = .ok (x, ']' :: rest)) :
    readItems (fuel + 1) depth cs = .ok ([x], rest) := by
  rw [readItems, h]
  rfl

/-- An item is read up to the comma, and then the others. -/
theorem readItems_comma {x : Document} {cs after : List Char}
    (h : readValue fuel depth cs = .ok (x, ',' :: after)) (hstarts : Starts after) :
    (readItems (fuel + 1) depth cs).toOption
      = (readItems fuel depth after).toOption.map fun (xs, r) => (x :: xs, r) := by
  obtain ⟨c, tail, rfl, hblank, hclose⟩ := hstarts
  rw [readItems, h]
  simp only [skipBlanks_cons (c := ',') rfl, skipBlanks_cons hblank]
  split
  · rename_i heq
    exact absurd (List.cons.inj heq).1 hclose
  · cases readItems fuel depth (c :: tail) <;> rfl

theorem readItems_error {f : Failure} {cs : List Char} (h : readValue fuel depth cs = .error f) :
    (readItems (fuel + 1) depth cs).toOption = none := by
  rw [readItems, h]
  rfl

/-- The last member is read up to the closing brace. -/
theorem readMembers_last {x : Document} {key : String} {cs : List Char}
    (h : readValue fuel depth cs = .ok (x, '\x7d' :: rest)) :
    readMembers (fuel + 1) depth (stringChars key ++ ':' :: cs) = .ok ([(key, x)], rest) := by
  rw [stringChars_eq, readMembers]
  simp only [readText_stringChars, skipBlanks_cons (c := ':') rfl, h]
  rfl

/-- A member is read up to the comma, and then the others. -/
theorem readMembers_comma {x : Document} {key : String} {cs after : List Char}
    (h : readValue fuel depth cs = .ok (x, ',' :: after)) (hstarts : Starts after) :
    (readMembers (fuel + 1) depth (stringChars key ++ ':' :: cs)).toOption
      = (readMembers fuel depth after).toOption.map fun (ms, r) => ((key, x) :: ms, r) := by
  rw [stringChars_eq, readMembers]
  simp only [readText_stringChars, skipBlanks_cons (c := ':') rfl, h,
    skipBlanks_cons (c := ',') rfl, hstarts.skipBlanks]
  cases readMembers fuel depth after <;> rfl

theorem readMembers_error {f : Failure} {key : String} {cs : List Char}
    (h : readValue fuel depth cs = .error f) :
    (readMembers (fuel + 1) depth (stringChars key ++ ':' :: cs)).toOption = none := by
  rw [stringChars_eq, readMembers]
  simp only [readText_stringChars, skipBlanks_cons (c := ':') rfl, h]
  rfl

theorem starts_memberChars (key : String) (x : Document) (ms : List (String × Document)) :
    Starts (memberChars reals ((key, x) :: ms)) ∧
      (memberChars reals ((key, x) :: ms)).head? ≠ some '\x7d' := by
  have hquote : '"' ≠ '\x7d' := by decide
  have hhead : ∀ tail : List Char, ('"' :: tail).head? ≠ some '\x7d' :=
    fun _ h => hquote (Option.some.inj h)
  cases ms <;> exact ⟨starts_cons rfl (by decide) _, hhead _⟩

mutual

/-- A document is read up to what follows it, as deep as reading goes. -/
theorem readValue_chars : ∀ (d : Document) (fuel depth : Nat) {rest : List Char},
    d.hasWords = true → Ends rest → 2 * (d.chars reals).length ≤ fuel →
    (readValue fuel depth (d.chars reals ++ rest)).toOption
      = if d.nesting ≤ depth then some (d, rest) else none
  | d, 0, _, _, hwords, _, hfuel => by
    obtain ⟨c, tail, hchars, -⟩ := starts_chars hwords
    rw [hchars, List.length_cons] at hfuel
    omega
  | .null, fuel + 1, depth, rest, _, _, _ => by
    rw [nesting, if_pos depth.zero_le]
    rfl
  | .bool b, fuel + 1, depth, rest, _, _, _ => by
    rw [nesting, if_pos depth.zero_le]
    cases b <;> rfl
  | .int n, fuel + 1, depth, rest, hwords, hends, _ => by
    obtain ⟨c, tail, hchars, hc⟩ := exists_intChars n
    have hread := readNumber_intChars (of_decide_eq_true hwords) hends
    rw [hchars, List.cons_append] at hread
    rw [nesting, if_pos depth.zero_le, chars, hchars, List.cons_append, readValue_number hc, hread]
    rfl
  | .real _, _ + 1, _, _, hwords, _, _ => by cases hwords
  | .string s, fuel + 1, depth, rest, _, _, _ => by
    rw [nesting, if_pos depth.zero_le, chars, stringChars_eq, readValue, skipBlanks_cons rfl]
    simp only [readText_stringChars]
    rfl
  | .array items, fuel + 1, 0, rest, _, _, _ => by
    rw [nesting, if_neg (by omega)]
    rfl
  | .array [], fuel + 1, depth + 1, rest, _, _, _ => rfl
  | .array (x :: xs), fuel + 1, depth + 1, rest, hwords, _, hfuel => by
    have hx : x.hasWords = true := (Bool.and_eq_true_iff.mp hwords).1
    rw [chars, List.length_append, List.length_cons] at hfuel
    have ih :=
      readItems_itemChars (x :: xs) fuel depth rest (List.cons_ne_nil x xs) hwords (by omega)
    rw [chars, List.cons_append, List.cons_append, List.append_assoc, List.singleton_append,
      readValue_array ((starts_itemChars hx xs).append _), toOption_map, ih, nesting]
    exact map_ite_some _ _ (by omega)
  | .object members, fuel + 1, 0, rest, _, _, _ => by
    rw [nesting, if_neg (by omega)]
    rfl
  | .object [], fuel + 1, depth + 1, rest, _, _, _ => rfl
  | .object (m :: ms), fuel + 1, depth + 1, rest, hwords, _, hfuel => by
    obtain ⟨hstarts, hhead⟩ := starts_memberChars m.1 m.2 ms
    rw [chars, List.length_append, List.length_cons] at hfuel
    have ih := readMembers_memberChars (m :: ms) fuel depth rest (List.cons_ne_nil m ms) hwords
      (by omega)
    have hbrace : (memberChars reals (m :: ms) ++ '\x7d' :: rest).head? ≠ some '\x7d' := by
      obtain ⟨c, tail, hchars, -⟩ := hstarts
      rw [hchars] at hhead ⊢
      exact hhead
    rw [chars, List.cons_append, List.cons_append, List.append_assoc, List.singleton_append,
      readValue_object (hstarts.append _) hbrace, toOption_map, ih, nesting]
    exact map_ite_some _ _ (by omega)

/-- Items are read up to the closing bracket, as deep as reading goes. -/
theorem readItems_itemChars : ∀ (xs : List Document) (fuel depth : Nat) (rest : List Char),
    xs ≠ [] → itemsHaveWords xs = true → 2 * (itemChars reals xs).length + 1 ≤ fuel →
    (readItems fuel depth (itemChars reals xs ++ ']' :: rest)).toOption
      = if itemNesting xs ≤ depth then some (xs, rest) else none
  | [], _, _, _, hne, _, _ => absurd rfl hne
  | [x], fuel + 1, depth, rest, _, hwords, hfuel => by
    rw [itemChars] at hfuel
    have ih := readValue_chars x fuel depth (Bool.and_eq_true_iff.mp hwords).1
      (ends_cons (.inr (.inl rfl)) rest) (by omega)
    rw [itemChars, itemNesting, itemNesting, Nat.max_zero]
    by_cases hnest : x.nesting ≤ depth
    · rw [if_pos hnest] at ih ⊢
      rw [readItems_last (toOption_eq_some.mp ih)]
      rfl
    · rw [if_neg hnest] at ih ⊢
      obtain ⟨f, hf⟩ := toOption_eq_none.mp ih
      exact readItems_error hf
  | x :: y :: ys, fuel + 1, depth, rest, _, hwords, hfuel => by
    obtain ⟨hx, hys⟩ := Bool.and_eq_true_iff.mp hwords
    have hy : y.hasWords = true := (Bool.and_eq_true_iff.mp hys).1
    have hne : y :: ys ≠ [] := List.cons_ne_nil y ys
    rw [itemChars_cons_cons, List.length_append, List.length_cons] at hfuel
    have ihx := readValue_chars x fuel depth hx
      (ends_cons (.inl rfl) (itemChars reals (y :: ys) ++ ']' :: rest)) (by omega)
    have ihys := readItems_itemChars (y :: ys) fuel depth rest hne hys (by omega)
    rw [itemChars_cons_cons, itemNesting, List.append_assoc, List.cons_append]
    by_cases hnest : x.nesting ≤ depth
    · rw [if_pos hnest] at ihx
      rw [readItems_comma (toOption_eq_some.mp ihx) ((starts_itemChars hy ys).append _), ihys]
      exact map_ite_some _ _ (by omega)
    · rw [if_neg hnest] at ihx
      obtain ⟨f, hf⟩ := toOption_eq_none.mp ihx
      rw [readItems_error hf, if_neg (by omega)]

/-- Members are read up to the closing brace, as deep as reading goes. -/
theorem readMembers_memberChars : ∀ (ms : List (String × Document)) (fuel depth : Nat)
    (rest : List Char), ms ≠ [] → membersHaveWords ms = true →
    2 * (memberChars reals ms).length + 1 ≤ fuel →
    (readMembers fuel depth (memberChars reals ms ++ '\x7d' :: rest)).toOption
      = if memberNesting ms ≤ depth then some (ms, rest) else none
  | [], _, _, _, hne, _, _ => absurd rfl hne
  | [(key, x)], fuel + 1, depth, rest, _, hwords, hfuel => by
    rw [memberChars, List.length_append, List.length_cons] at hfuel
    have ih := readValue_chars x fuel depth (Bool.and_eq_true_iff.mp hwords).1
      (ends_cons (.inr (.inr rfl)) rest) (by omega)
    rw [memberChars, memberNesting, memberNesting, Nat.max_zero, List.append_assoc,
      List.cons_append]
    by_cases hnest : x.nesting ≤ depth
    · rw [if_pos hnest] at ih ⊢
      rw [readMembers_last (toOption_eq_some.mp ih)]
      rfl
    · rw [if_neg hnest] at ih ⊢
      obtain ⟨f, hf⟩ := toOption_eq_none.mp ih
      exact readMembers_error hf
  | (key, x) :: (key', y) :: ms, fuel + 1, depth, rest, _, hwords, hfuel => by
    obtain ⟨hx, hms⟩ := Bool.and_eq_true_iff.mp hwords
    obtain ⟨hstarts, -⟩ := starts_memberChars key' y ms
    have hne : (key', y) :: ms ≠ [] := List.cons_ne_nil _ ms
    rw [memberChars_cons_cons, List.length_append, List.length_append, List.length_cons,
      List.length_cons] at hfuel
    have ihx := readValue_chars x fuel depth hx
      (ends_cons (.inl rfl) (memberChars reals ((key', y) :: ms) ++ '\x7d' :: rest)) (by omega)
    have ihms := readMembers_memberChars ((key', y) :: ms) fuel depth rest hne hms (by omega)
    rw [memberChars_cons_cons, memberNesting, List.append_assoc, List.append_assoc,
      List.cons_append, List.cons_append]
    by_cases hnest : x.nesting ≤ depth
    · rw [if_pos hnest] at ihx
      rw [readMembers_comma (toOption_eq_some.mp ihx) (hstarts.append _), ihms]
      exact map_ite_some _ _ (by omega)
    · rw [if_neg hnest] at ihx
      obtain ⟨f, hf⟩ := toOption_eq_none.mp ihx
      rw [readMembers_error hf, if_neg (by omega)]

end

/-- **A document whose numbers are whole is read back exactly if it nests within the limit**;
nothing of the text is left over. -/
theorem read_text {d : Document} (h : d.hasWords = true) (limit : Nat) :
    (read limit (d.text reals)).toOption = if d.nesting ≤ limit then some (d, []) else none := by
  have hread := @readValue_chars reals d (2 * (d.text reals).length + 2) limit [] h ends_nil (by
    rw [text, String.length_ofList]
    omega)
  rw [List.append_nil] at hread
  rw [read, text, String.toList_ofList]
  exact hread

end Columnar.Document

namespace Columnar.DocumentLibrary

/-- A library reads back what it prints of a document whose numbers are whole, nothing left over,
while the document nests less than 128 levels; a text that nests as deep as that is refused. -/
structure IsDocumented (lib : DocumentLibrary) : Prop where
  faithful {d : Document} (hwords : d.hasWords = true) (hnest : d.nesting < 128) :
    lib.read (lib.print d) = .ok (d, [])
  limited {d : Document} (hwords : d.hasWords = true) (hnest : 128 ≤ d.nesting) :
    ∃ failure, lib.read (lib.print d) = .error failure

/-- **The library of the programs is such a library.** -/
theorem isDocumented_standard : standard.IsDocumented := by
  constructor
  · intro d hwords hnest
    have hle : d.nesting ≤ Document.maxNesting := Nat.le_of_lt_succ hnest
    have hread := @Document.read_text (.shortest ⟨true⟩) d hwords Document.maxNesting
    rw [if_pos hle] at hread
    exact Document.toOption_eq_some.mp hread
  · intro d hwords hnest
    have hlt : ¬ d.nesting ≤ Document.maxNesting := Nat.not_le.mpr hnest
    have hread := @Document.read_text (.shortest ⟨true⟩) d hwords Document.maxNesting
    rw [if_neg hlt] at hread
    exact Document.toOption_eq_none.mp hread

end Columnar.DocumentLibrary
