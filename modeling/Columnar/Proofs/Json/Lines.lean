import Columnar.Proofs.Json.Draft

/-!
# The lines of a draft

Values outside of all containers stand on lines of their own, so the tokens of a text belong to its
lines.  Those of a draft of trees are the tokens of the complete trees and, on a last line, those of
the open containers from the outermost on.  A line in this sense may be broken inside a container,
where line breaks are blanks like others.

## Main definitions

* `Lines` — what the lines of a text spell.
* `Enclosing.tokens`, `Draft.around` — the tokens of open containers.
* `Draft.linesWith`, `Draft.lines` — the tokens on the lines of a draft.

## Main results

* `Lines.append`, `Lines.concat` — a text goes on in its last line, or with another line.
* `Draft.lines_put` — what a tree adds to a draft.
* `Draft.lines_begin` — **what begins next stands behind all there is.**
* `Draft.parted_lines`, `Lines.lex_eq` — **the tokens of the lines are found.**
-/

namespace Columnar

/-! ### Lines -/

theorem intercalate_concat {α : Type} (sep : List α) {xss : List (List α)} (h : xss ≠ [])
    (xs : List α) : sep.intercalate (xss ++ [xs]) = sep.intercalate xss ++ (sep ++ xs) := by
  induction xss with
  | nil => exact absurd rfl h
  | cons ys rest ih =>
    cases rest with
    | nil => simp
    | cons zs rest =>
      have hrest := ih (List.cons_ne_nil zs rest)
      rw [List.cons_append] at hrest
      rw [List.cons_append, List.cons_append, List.intercalate_cons_cons, hrest,
        List.intercalate_cons_cons]
      simp

theorem exists_of_forall₂_concat {α β : Type} {R : α → β → Prop} {as : List α} {a : α} {bs : List β}
    (h : List.Forall₂ R (as ++ [a]) bs) :
    ∃ front last, List.Forall₂ R as front ∧ R a last ∧ bs = front ++ [last] := by
  induction as generalizing bs with
  | nil =>
    obtain _ | ⟨hlast, _ | _⟩ := h
    exact ⟨[], _, .nil, hlast, rfl⟩
  | cons a' as ih =>
    obtain _ | ⟨hfirst, hrest⟩ := h
    obtain ⟨front, last, hfront, hlast, rfl⟩ := ih hrest
    exact ⟨_ :: front, last, .cons hfirst hfront, hlast, rfl⟩

/-- The lines of a text spell some tokens each. -/
def Lines (tss : List (List Token)) (bytes : List UInt8) : Prop :=
  ∃ lines, List.Forall₂ Spaced tss lines ∧ bytes = [0x0a].intercalate lines

namespace Lines

variable {tss : List (List Token)} {ts us : List Token} {bytes text more : List UInt8}

theorem nil : Lines [] [] := ⟨[], .nil, rfl⟩

theorem single (h : Spaced ts text) : Lines [ts] text := ⟨[text], .cons h .nil, by simp⟩

/-- A text goes on with another line. -/
theorem concat (h : Lines tss bytes) (hne : tss ≠ []) (ht : Spaced ts text) :
    Lines (tss ++ [ts]) (bytes ++ 0x0a :: text) := by
  obtain ⟨lines, hlines, rfl⟩ := h
  refine ⟨lines ++ [text], List.rel_append hlines (.cons ht .nil), ?_⟩
  rw [intercalate_concat _ fun hnil => hne (by simpa [hnil] using hlines)]
  rfl

/-- A text goes on in its last line. -/
theorem append (h : Lines (tss ++ [ts]) bytes) (hm : Spaced us more) :
    Lines (tss ++ [ts ++ us]) (bytes ++ more) := by
  obtain ⟨lines, hlines, rfl⟩ := h
  obtain ⟨front, last, hfront, hlast, rfl⟩ := exists_of_forall₂_concat hlines
  cases front with
  | nil =>
    cases hfront
    simpa using single (hlast.append hm)
  | cons line front =>
    refine ⟨line :: front ++ [last ++ more],
      List.rel_append hfront (.cons (hlast.append hm) .nil), ?_⟩
    rw [intercalate_concat _ (List.cons_ne_nil line front),
      intercalate_concat _ (List.cons_ne_nil line front)]
    simp

/-- The tokens of the lines are found. -/
theorem lex_eq (hparted : ∀ ts ∈ tss, ts.IsChain Parted) (h : Lines tss bytes) (offset : Nat) :
    ∃ us : List Located, ∃ offset', us.map Located.token = tss.flatten ∧
      lex true offset bytes = ⟨us, .finished offset'⟩ := by
  obtain ⟨lines, hlines, rfl⟩ := h
  induction hlines generalizing offset with
  | nil => exact ⟨[], offset, rfl, lex_of_finished (s := 0) rfl⟩
  | @cons ts text tss lines ht hlines ih =>
    obtain ⟨hts, htss⟩ := List.forall_mem_cons.mp hparted
    cases lines with
    | nil =>
      cases hlines
      simpa using ht.lex_last hts offset
    | cons text' lines =>
      obtain ⟨us, offset₁, hus, hlex⟩ := ht.lex_blank hts (b := 0x0a) rfl offset
      obtain ⟨vs, offset', hvs, hlex'⟩ := ih htss offset₁
      refine ⟨us ++ vs, offset', by rw [List.map_append, hus, hvs, List.flatten_cons], ?_⟩
      rw [List.intercalate_cons_cons, List.append_assoc, List.singleton_append, hlex, hlex']

end Lines

/-! ### The tokens of open containers -/

/-- The comma behind what stands in a container. -/
def commaBehind (isEmpty : Bool) : List Token := if isEmpty then [] else [.comma]

theorem joined_concat (isFirst : Bool) (tss : List (List Token)) (ts : List Token) :
    joined isFirst (tss ++ [ts])
      = joined isFirst tss ++ (commaBehind (isFirst && tss.isEmpty) ++ ts) := by
  induction tss generalizing isFirst with
  | nil => simp [joined, commaBehind]
  | cons us tss ih => simp [joined, ih false, List.append_assoc]

/-- The tokens of a list that is not closed yet. -/
def listTokens (items : List Json) : List Token :=
  .arrayStart :: joined true (Json.itemTokens items)

/-- The tokens of a record that is not closed yet. -/
def recordTokens (members : List (JsonString × Json)) : List Token :=
  .objectStart :: joined true (Json.memberTokens members)

theorem listTokens_concat (items : List Json) (j : Json) :
    listTokens (items ++ [j]) = listTokens items ++ (commaBehind items.isEmpty ++ j.tokens) := by
  simp [listTokens, Json.itemTokens_eq_map, joined_concat]

theorem recordTokens_concat (members : List (JsonString × Json)) (key : JsonString) (j : Json) :
    recordTokens (members ++ [(key, j)]) = recordTokens members
      ++ (commaBehind members.isEmpty ++ key.token :: .colon :: j.tokens) := by
  simp [recordTokens, Json.memberTokens_eq_map, joined_concat]

theorem tokens_array (items : List Json) :
    (Json.array items).tokens = listTokens items ++ [.arrayEnd] := by
  rw [Json.tokens, listTokens, joined_true]

theorem tokens_object (members : List (JsonString × Json)) :
    (Json.object members).tokens = recordTokens members ++ [.objectEnd] := by
  rw [Json.tokens, recordTokens, joined_true]

namespace Enclosing

/-- What is written of a container that waits for a value. -/
def tokens : Enclosing JsonString Json → List Token
  | .list items => listTokens items
  | .record members key =>
    recordTokens members ++ (commaBehind members.isEmpty ++ [key.token, .colon])

/-- What stands between that and the value. -/
def comma : Enclosing JsonString Json → List Token
  | .list items => commaBehind items.isEmpty
  | .record _ _ => []

end Enclosing

namespace Draft

/-- The tokens of open containers, the innermost first, up to the next value. -/
def around : List (Enclosing JsonString Json) → List Token
  | [] => []
  | f :: outer => around outer ++ (f.tokens ++ f.comma)

/-- The tokens on the lines of a draft where tokens stand in the place of the next value. -/
def linesWith (done : List Json) (outer : List (Enclosing JsonString Json)) (ts : List Token) :
    List (List Token) :=
  done.map Json.tokens ++ [around outer ++ ts]

/-- The tokens on the lines of a draft. -/
def lines (J : Draft JsonString Json) : List (List Token) :=
  match J.fields?, J.outer with
  | some members, outer => linesWith J.done outer (recordTokens members)
  | none, f :: outer => linesWith J.done outer f.tokens
  | none, [] => J.done.map Json.tokens

theorem linesWith_cons (done : List Json) (f : Enclosing JsonString Json)
    (outer : List (Enclosing JsonString Json)) (ts : List Token) :
    linesWith done (f :: outer) ts = linesWith done outer (f.tokens ++ (f.comma ++ ts)) := by
  simp [linesWith, around]

variable {J : Draft JsonString Json} {ts us : List Token} {bytes text more : List UInt8}

/-- What a tree adds to a draft. -/
theorem lines_put (hJ : J.fields? = none) (j : Json) :
    (J.put j).lines = linesWith J.done J.outer j.tokens := by
  obtain ⟨done, outer, fields?⟩ := J
  obtain rfl : fields? = none := hJ
  rcases outer with - | ⟨items | ⟨members, key⟩, outer⟩
  · simp [put, lines, linesWith, around]
  · simp [put, lines, linesWith, around, Enclosing.tokens, Enclosing.comma, listTokens_concat]
  · simp [put, lines, linesWith, around, Enclosing.tokens, Enclosing.comma, recordTokens_concat]

/-- Where nothing is open, there are the complete trees. -/
theorem Means.lines_of_isClosed {d : Draft String Value} (h : J.Means d) (hd : d.IsClosed) :
    J.lines = J.done.map Json.tokens := by
  obtain ⟨jdone, jouter, jfields?⟩ := J
  obtain ⟨done, outer, fields?⟩ := d
  obtain ⟨rfl, rfl⟩ : outer = [] ∧ fields? = none := hd
  obtain ⟨-, houter, hfields⟩ := h
  cases houter
  cases hfields
  rfl

/-- What is written where a value has begun goes on. -/
theorem lines_extend {done : List Json} {outer : List (Enclosing JsonString Json)}
    (h : Lines (linesWith done outer ts) bytes) (hm : Spaced us more) :
    Lines (linesWith done outer (ts ++ us)) (bytes ++ more) := by
  have hlines := h.append hm
  rwa [List.append_assoc] at hlines

/-- **What begins next stands behind all there is.** -/
theorem lines_begin {o : WriteOptions} (ho : o.IsBlank) (hJ : J.fields? = none)
    (h : Lines J.lines bytes) (ht : Spaced ts text) :
    Lines (linesWith J.done J.outer ts) (bytes ++ (Utf8.encode (J.front o) ++ text)) := by
  obtain ⟨done, outer, fields?⟩ := J
  obtain rfl : fields? = none := hJ
  rcases outer with - | ⟨items | ⟨members, key⟩, outer⟩
  · cases done with
    | nil =>
      obtain ⟨lines, hlines, rfl⟩ := h
      cases hlines
      exact .single ht
    | cons j done => exact h.concat (List.cons_ne_nil _ _) ht
  · have hblank := (ho.newLine (outer.length + 1)).encode
    rw [linesWith_cons, front, Utf8.encode_append, List.append_assoc (Utf8.encode _)]
    exact lines_extend h ((spaced_separator items.isEmpty).append (.blanks_append hblank ht))
  · rw [linesWith_cons]
    exact lines_extend h ht

/-! ### Numbers in a draft -/

/-- Tokens in which each number has a mark behind it, also the last one. -/
structure IsSettled (ts : List Token) : Prop where
  isChain : ts.IsChain Parted
  last : ∀ t ∈ ts.getLast?, t.isNumber = false

theorem IsSettled.append (h : IsSettled ts) (hus : us.IsChain Parted) :
    (ts ++ us).IsChain Parted := by
  refine List.isChain_append.mpr ⟨h.isChain, hus, fun t ht u _ hn => ?_⟩
  rw [h.last t ht] at hn
  cases hn

theorem IsSettled.append_settled (h : IsSettled ts) (hus : IsSettled us) :
    IsSettled (ts ++ us) := by
  refine ⟨h.append hus.isChain, fun t ht => ?_⟩
  rw [List.getLast?_append] at ht
  cases hlast : us.getLast? with
  | none =>
    rw [hlast, Option.none_or] at ht
    exact h.last t ht
  | some u =>
    rw [hlast, Option.some_or] at ht
    exact hus.last t (hlast ▸ ht)

theorem IsSettled.single {t : Token} (h : t.isNumber = false) : IsSettled [t] :=
  ⟨.singleton _, by simpa using h⟩

/-- What stands in a container is settled with the comma behind it. -/
theorem isSettled_opening {first : Token} (hfirst : first.isNumber = false)
    {tss : List (List Token)} (h : ∀ ts ∈ tss, ts.IsChain Parted) :
    (first :: joined true tss).IsChain Parted ∧
      IsSettled (first :: joined true tss ++ commaBehind tss.isEmpty) := by
  have hchain : (first :: joined true tss).IsChain Parted := by
    rw [joined_true]
    exact parted_cons hfirst (parted_intercalate h)
  refine ⟨hchain, ?_⟩
  cases tss with
  | nil => exact .single hfirst
  | cons ts tss =>
    refine ⟨parted_append rfl hchain (.singleton _), fun t ht => ?_⟩
    rw [commaBehind, List.isEmpty_cons, if_neg Bool.false_ne_true, List.getLast?_concat] at ht
    cases ht
    rfl

theorem listTokens_parted (items : List Json) : (listTokens items).IsChain Parted ∧
    IsSettled (listTokens items ++ commaBehind items.isEmpty) := by
  have hstart : Token.arrayStart.isNumber = false := rfl
  have h := isSettled_opening hstart (Json.parted_itemTokens items)
  rwa [Json.itemTokens_eq_map, List.isEmpty_map, ← Json.itemTokens_eq_map] at h

theorem recordTokens_parted (members : List (JsonString × Json)) :
    (recordTokens members).IsChain Parted ∧
      IsSettled (recordTokens members ++ commaBehind members.isEmpty) := by
  have hstart : Token.objectStart.isNumber = false := rfl
  have h := isSettled_opening hstart (Json.parted_memberTokens members)
  rwa [Json.memberTokens_eq_map, List.isEmpty_map, ← Json.memberTokens_eq_map] at h

theorem isSettled_enclosing (f : Enclosing JsonString Json) :
    f.tokens.IsChain Parted ∧ IsSettled (f.tokens ++ f.comma) := by
  cases f with
  | list items => exact listTokens_parted items
  | record members key =>
    have hkey : IsSettled [key.token, .colon] :=
      (IsSettled.single (t := key.token) rfl).append_settled (.single rfl)
    have h := (recordTokens_parted members).2.append_settled hkey
    rw [List.append_assoc] at h
    exact ⟨h.isChain, by simpa [Enclosing.comma, Enclosing.tokens] using h⟩

theorem isSettled_around (outer : List (Enclosing JsonString Json)) : IsSettled (around outer) := by
  induction outer with
  | nil => exact ⟨.nil, nofun⟩
  | cons f outer ih => exact ih.append_settled (isSettled_enclosing f).2

/-- In a draft, a number has a mark behind it. -/
theorem parted_lines (J : Draft JsonString Json) : ∀ ts ∈ J.lines, ts.IsChain Parted := by
  obtain ⟨done, outer, fields?⟩ := J
  have hdone : ∀ ts ∈ done.map Json.tokens, ts.IsChain Parted := by
    intro ts hts
    obtain ⟨j, -, rfl⟩ := List.mem_map.mp hts
    exact j.parted_tokens
  have hwith : ∀ outer us, us.IsChain Parted →
      ∀ ts ∈ linesWith done outer us, ts.IsChain Parted := by
    intro outer us hus ts hts
    rcases List.mem_append.mp hts with hts | hts
    · exact hdone ts hts
    · obtain rfl := List.mem_singleton.mp hts
      exact (isSettled_around outer).append hus
  cases fields? with
  | some members => exact hwith outer _ (recordTokens_parted members).1
  | none =>
    cases outer with
    | nil => exact hdone
    | cons f outer => exact hwith outer _ (isSettled_enclosing f).1

end Draft

end Columnar
