import Columnar.Json.Grammar
import Columnar.Builder
import Columnar.Proofs.Json.Content
import Columnar.Proofs.Json.Number

/-!
# JSON values

A JSON value is a tree, which has its tokens and means a value, unless a string in it is not valid
or an integer is too large.

## Main definitions

* `Json` — JSON values.
* `Json.tokens` — the tokens of a value.
* `Json.value?` — what a value means.

## Main results

* `StringContent.toOption_decode` — the text of a string does not depend on its place.
* `ReadOptions.scalarPush_eq` — **a token that is a whole value stands for the push of what the
  value means.**
-/

namespace Columnar

/-! ### Trees -/

/-- A number of the grammar. -/
structure JsonNumber where
  /-- Its parts. -/
  parts : NumberParts
  /-- They follow the grammar. -/
  grammatical : parts.IsGrammatical

/-- A string as it stands between its quotes. -/
structure JsonString where
  /-- The bytes between the quotes. -/
  content : List UInt8
  /-- Whether a backslash is among them. -/
  hasEscapes : Bool
  /-- No quote among them ends the string. -/
  body : StringBody content hasEscapes

/-- A JSON value. -/
inductive Json
  /-- The word `null`. -/
  | null
  /-- One of the words `true` and `false`. -/
  | bool (b : Bool)
  /-- A number. -/
  | number (n : JsonNumber)
  /-- A string. -/
  | string (s : JsonString)
  /-- The items of an array. -/
  | array (items : List Json)
  /-- The members of an object. -/
  | object (members : List (JsonString × Json))

namespace JsonString

/-- The token of a string. -/
def token (s : JsonString) : Token := .string s.content s.hasEscapes

/-- The text of a string, if it is UTF-8 and all escapes are valid. -/
def text? (s : JsonString) : Option String :=
  (StringContent.decode 0 s.content s.hasEscapes).toOption

end JsonString

/-- The token of a number. -/
def JsonNumber.token (n : JsonNumber) : Token := .number n.parts.literal n.parts.shape

namespace Json

mutual

/-- The tokens of a value. -/
def tokens : Json → List Token
  | .null => [.null]
  | .bool b => [.bool b]
  | .number n => [n.token]
  | .string s => [s.token]
  | .array items => .arrayStart :: [.comma].intercalate (itemTokens items) ++ [.arrayEnd]
  | .object members => .objectStart :: [.comma].intercalate (memberTokens members) ++ [.objectEnd]

/-- The tokens of each of some items. -/
def itemTokens : List Json → List (List Token)
  | [] => []
  | j :: js => tokens j :: itemTokens js

/-- The tokens of each of some members: a key, a colon and a value. -/
def memberTokens : List (JsonString × Json) → List (List Token)
  | [] => []
  | (key, j) :: rest => (key.token :: .colon :: tokens j) :: memberTokens rest

end

theorem tokens_append_ne_nil (j : Json) (rest : List Token) : j.tokens ++ rest ≠ [] := by
  cases j <;> nofun

theorem itemTokens_eq_map (js : List Json) : itemTokens js = js.map tokens := by
  induction js with
  | nil => rfl
  | cons j js ih => rw [itemTokens, ih, List.map_cons]

theorem memberTokens_eq_map (members : List (JsonString × Json)) :
    memberTokens members = members.map fun (key, j) => key.token :: .colon :: j.tokens := by
  induction members with
  | nil => rfl
  | cons member members ih => rw [memberTokens, ih, List.map_cons]

end Json

/-! ### Meanings -/

namespace ReadOptions

/-- What a text means: a string, or the real that is spelled so. -/
def textValue (o : ReadOptions) (text : String) : Value :=
  match o.nonFinite? text with
  | some x => .real x
  | none => .string text

/-- What a number means, unless it is too large and that is an error. -/
def numberValue? (o : ReadOptions) : Number → Option Value
  | .int n => some (.int n)
  | .real x => some (.real x)
  | .large x =>
    match o.integerOverflow with
    | .promote => some (.real x)
    | .error => none

end ReadOptions

namespace Json

mutual

/-- What a JSON value means, unless a string in it is not valid or an integer too large. -/
def value? (o : ReadOptions) : Json → Option Value
  | .null => some .null
  | .bool b => some (.bool b)
  | .number n => o.numberValue? n.parts.number
  | .string s => s.text?.map o.textValue
  | .array items => (itemValues? o items).map .list
  | .object members => (memberValues? o members).map (.record none)

/-- What items mean, one by one. -/
def itemValues? (o : ReadOptions) : List Json → Option (List Value)
  | [] => some []
  | j :: js => do
    let v ← value? o j
    let vs ← itemValues? o js
    return v :: vs

/-- What members mean, one by one. -/
def memberValues? (o : ReadOptions) : List (JsonString × Json) → Option (List (String × Value))
  | [] => some []
  | (key, j) :: rest => do
    let text ← key.text?
    let v ← value? o j
    let fields ← memberValues? o rest
    return (text, v) :: fields

end

theorem itemValues?_cons_iff {o : ReadOptions} {j : Json} {js : List Json} {vs : List Value} :
    itemValues? o (j :: js) = some vs
      ↔ ∃ v vs', value? o j = some v ∧ itemValues? o js = some vs' ∧ vs = v :: vs' := by
  simp only [itemValues?, Option.bind_eq_bind, Option.bind_eq_some_iff, Option.pure_def,
    Option.some.injEq]
  constructor
  · rintro ⟨v, hv, vs', hvs, rfl⟩
    exact ⟨v, vs', hv, hvs, rfl⟩
  · rintro ⟨v, vs', hv, hvs, rfl⟩
    exact ⟨v, hv, vs', hvs, rfl⟩

theorem memberValues?_cons_iff {o : ReadOptions} {key : JsonString} {j : Json}
    {members : List (JsonString × Json)} {fields : List (String × Value)} :
    memberValues? o ((key, j) :: members) = some fields
      ↔ ∃ text v rest, key.text? = some text ∧ value? o j = some v ∧
        memberValues? o members = some rest ∧ fields = (text, v) :: rest := by
  simp only [memberValues?, Option.bind_eq_bind, Option.bind_eq_some_iff, Option.pure_def,
    Option.some.injEq]
  constructor
  · rintro ⟨text, htext, v, hv, rest, hrest, rfl⟩
    exact ⟨text, v, rest, htext, hv, hrest, rfl⟩
  · rintro ⟨text, v, rest, htext, hv, hrest, rfl⟩
    exact ⟨text, htext, v, hv, rest, hrest, rfl⟩

theorem itemValues?_concat {o : ReadOptions} {js : List Json} {vs : List Value} {j : Json}
    {v : Value} (hjs : itemValues? o js = some vs) (hj : j.value? o = some v) :
    itemValues? o (js ++ [j]) = some (vs ++ [v]) := by
  induction js generalizing vs with
  | nil =>
    cases hjs
    exact itemValues?_cons_iff.mpr ⟨v, [], hj, rfl, rfl⟩
  | cons j' js ih =>
    obtain ⟨v', vs', hv', hvs', rfl⟩ := itemValues?_cons_iff.mp hjs
    exact itemValues?_cons_iff.mpr ⟨v', _, hv', ih hvs', rfl⟩

theorem memberValues?_concat {o : ReadOptions} {members : List (JsonString × Json)}
    {fields : List (String × Value)} {key : JsonString} {text : String} {j : Json} {v : Value}
    (hmembers : memberValues? o members = some fields) (hkey : key.text? = some text)
    (hj : j.value? o = some v) :
    memberValues? o (members ++ [(key, j)]) = some (fields ++ [(text, v)]) := by
  induction members generalizing fields with
  | nil =>
    cases hmembers
    exact memberValues?_cons_iff.mpr ⟨text, v, [], hkey, hj, rfl, rfl⟩
  | cons member members ih =>
    obtain ⟨text', v', rest, htext', hv', hrest, rfl⟩ := memberValues?_cons_iff.mp hmembers
    exact memberValues?_cons_iff.mpr ⟨text', v', _, htext', hv', ih hrest, rfl⟩

theorem length_itemValues? {o : ReadOptions} {js : List Json} {vs : List Value}
    (h : itemValues? o js = some vs) : vs.length = js.length := by
  induction js generalizing vs with
  | nil =>
    cases h
    rfl
  | cons j js ih =>
    obtain ⟨v, vs', -, hvs, rfl⟩ := itemValues?_cons_iff.mp h
    rw [List.length_cons, List.length_cons, ih hvs]

end Json

/-! ### The pushes of meanings -/

theorem toOption_map {ε α β : Type} (f : α → β) (x : Except ε α) :
    (x.map f).toOption = x.toOption.map f := by
  cases x <;> rfl

namespace StringContent

theorem toOption_unescape (offset offset' : Nat) (cs : List Char) :
    (unescape offset cs).toOption = (unescape offset' cs).toOption := by
  fun_induction unescape offset cs generalizing offset' with
  | case1 => rw [unescape_nil]
  | case2 offset rest x width h ih =>
    rw [unescape, if_pos rfl, h]
    simp only [toOption_map]
    rw [ih]
  | case3 offset rest cause h =>
    rw [unescape, if_pos rfl, h]
    rfl
  | case4 offset c rest hc ih =>
    rw [unescape_cons_of_ne hc, toOption_map, toOption_map, ih]

/-- The text of a string does not depend on its place. -/
theorem toOption_decode (offset offset' : Nat) (content : List UInt8) (hasEscapes : Bool) :
    (decode offset content hasEscapes).toOption
      = (decode offset' content hasEscapes).toOption := by
  unfold decode
  cases Utf8.decode? content with
  | none => rfl
  | some cs =>
    cases hasEscapes with
    | false => rfl
    | true =>
      simp only [if_true, toOption_map]
      rw [toOption_unescape offset offset']

end StringContent

namespace ReadOptions

variable {o : ReadOptions}

theorem pushes_textValue (text : String) : (o.textValue text).pushes = [o.textPush text] := by
  unfold textValue textPush
  cases o.nonFinite? text <;> rfl

theorem numberPush?_eq (n : Number) :
    (o.numberPush? n).map (fun p => [p]) = (o.numberValue? n).map Value.pushes := by
  unfold numberPush? numberValue?
  cases n with
  | int | real => rfl
  | large x => cases o.integerOverflow <;> rfl

/-- A token that is a whole value stands for the push of that value. -/
theorem scalarPush_eq {j : Json} {t : Located} (h : j.tokens = [t.token]) (expected : Expected) :
    (o.scalarPush expected t).toOption.map (fun p => [p]) = (j.value? o).map Value.pushes := by
  obtain ⟨token, span⟩ := t
  cases j with
  | null | bool =>
    cases h
    rfl
  | number n =>
    cases h
    have hnumber := n.grammatical.ofLiteral?
    rw [Json.value?, ← numberPush?_eq]
    simp only [scalarPush, Number.parse, List.take_length, hnumber]
    cases o.numberPush? n.parts.number <;> rfl
  | string s =>
    cases h
    rw [Json.value?, JsonString.text?, StringContent.toOption_decode 0 (span.offset + 1)]
    simp only [scalarPush]
    cases StringContent.decode (span.offset + 1) s.content s.hasEscapes with
    | error e => rfl
    | ok text => exact congrArg some (pushes_textValue text).symm
  | array | object =>
    have hlen := congrArg List.length h
    simp [Json.tokens] at hlen

end ReadOptions

end Columnar
