import Mathlib.Data.List.Forall2
import Columnar.Proofs.Json.Decimals
import Columnar.Proofs.Json.InPlace
import Columnar.Proofs.Json.Written

/-!
# Drafts

While calls come in, the values they denote are a draft: those that are complete, and the containers
that are still open around the place of the next value.  Such a container waits for a value; only
the innermost one may be a record that waits for a key instead.  Whether a call fits depends on the
draft alone, and so does the draft to which it leads.

A draft of values has a counterpart of JSON trees, which mean the values.

## Main definitions

* `Enclosing`, `Draft` — containers that wait for a value, and values that are being written.
* `Draft.fits`, `Draft.take`, `Draft.ofCalls` — which calls fit a draft, and where they lead.
* `Call.value?` — the value that a call denotes.
* `Draft.encoder` — the open containers of a draft as the encoder keeps them.
* `Draft.Means` — a draft of trees has the meaning of a draft of values.

## Main results

* `Draft.exists_call_iff` — **the encoder accepts the calls that fit.**
* `Draft.Means.put` — a value is put where the tree of the value is put.
-/

namespace Columnar

/-! ### Drafts -/

/-- A container that waits for a value, with what it holds so far. -/
inductive Enclosing (κ α : Type)
  /-- A list and its items. -/
  | list (items : List α)
  /-- A record, its fields, and the key of the value that comes next. -/
  | record (fields : List (κ × α)) (key : κ)

/-- Values that are being written. -/
structure Draft (κ α : Type) where
  /-- The values outside of all containers. -/
  done : List α
  /-- The open containers that wait for a value, the innermost first. -/
  outer : List (Enclosing κ α)
  /-- The fields of the innermost container if it is a record that waits for a key. -/
  fields? : Option (List (κ × α))

namespace Draft

variable {κ α : Type}

/-- Nothing is written yet. -/
def blank : Draft κ α := ⟨[], [], none⟩

/-- Nothing is open. -/
def IsClosed (d : Draft κ α) : Prop := d.outer = [] ∧ d.fields? = none

/-- The draft with a value where one is awaited. -/
def put (d : Draft κ α) (a : α) : Draft κ α :=
  match d.outer with
  | [] => { d with done := d.done ++ [a] }
  | .list items :: outer => { d with outer := .list (items ++ [a]) :: outer }
  | .record fields key :: outer => { d with outer, fields? := some (fields ++ [(key, a)]) }

/-- Whether a call fits: the end of a list where a list is the innermost container, keys and the end
of a record where a record waits for a key, and values and new containers anywhere else. -/
def fits (d : Draft κ α) : Call → Bool
  | .endList =>
    match d.fields?, d.outer with
    | none, .list _ :: _ => true
    | _, _ => false
  | .field _ | .endRecord => d.fields?.isSome
  | _ => d.fields?.isNone

end Draft

/-! ### What calls denote -/

/-- Whether a call writes text that may be any. -/
def Call.isFragment : Call → Bool
  | .json _ => true
  | _ => false

namespace WriteOptions

/-- The settings with lines and indents of another kind. -/
def withLayout (o : WriteOptions) (pretty : Bool) (indent : String) : WriteOptions :=
  { o with pretty, indent }

/-- The real that the text of a finite real stands for: the real itself, or the one nearest to the
decimal to which it was rounded. -/
def textReal (o : WriteOptions) (x : Binary64) : Binary64 :=
  match o.maxDecimals? with
  | some decimals => (x.rounded decimals).toBinary64 x.negative
  | none => x

/-- What a real denotes: one that is not finite is a string or is missing. -/
def realValue (o : WriteOptions) (x : Binary64) : Value :=
  if x.isFinite then .real (o.textReal x)
  else
    match o.spelling? x with
    | some s => .string s
    | none => .null

/-- What a complex number denotes: a record if both parts have keys, otherwise a list. -/
def complexValue (o : WriteOptions) (z : Complex) : Value :=
  match o.complexReal?, o.complexImag? with
  | some re, some im => .record none [(re, o.realValue z.re), (im, o.realValue z.im)]
  | _, _ => .list [o.realValue z.re, o.realValue z.im]

end WriteOptions

/-- The value of a call that denotes a whole value. -/
def Call.value? (o : WriteOptions) : Call → Option Value
  | .null => some .null
  | .bool b => some (.bool b)
  | .int n => some (.int n)
  | .real x => some (o.realValue x)
  | .complex z => some (o.complexValue z)
  | .string s => some (.string s)
  | .beginList | .endList | .beginRecord | .field _ | .endRecord | .json _ => none

namespace Draft

/-- The draft after a call that fits. -/
def take (o : WriteOptions) (d : Draft String Value) (c : Call) : Draft String Value :=
  match c with
  | .beginList => { d with outer := .list [] :: d.outer }
  | .beginRecord => { d with fields? := some [] }
  | .field key =>
    match d.fields? with
    | some fields => ⟨d.done, .record fields key :: d.outer, none⟩
    | none => d
  | .endList =>
    match d.outer with
    | .list items :: outer => put ⟨d.done, outer, none⟩ (.list items)
    | _ => d
  | .endRecord =>
    match d.fields? with
    | some fields => put ⟨d.done, d.outer, none⟩ (.record none fields)
    | none => d
  | c =>
    match c.value? o with
    | some v => d.put v
    | none => d

/-- The draft after a call; one that does not fit changes nothing. -/
def after (o : WriteOptions) (d : Draft String Value) (c : Call) : Draft String Value :=
  if d.fits c then d.take o c else d

/-- The draft after calls one after another. -/
def ofCalls (o : WriteOptions) (cs : List Call) : Draft String Value := cs.foldl (after o) blank

end Draft

/-! ### The open containers of a draft -/

namespace Enclosing

variable {κ α : Type}

/-- A container that waits for a value, as the innermost one. -/
def innermost : Enclosing κ α → Open
  | .list items => .list items.isEmpty
  | .record _ _ => .record false true

/-- A container in which another one has begun. -/
def entered : Enclosing κ α → Open
  | .list _ => .list false
  | .record _ _ => .record false false

end Enclosing

namespace Draft

variable {κ α : Type} {d : Draft κ α} {o : WriteOptions}

/-- The open containers, once the next value has begun. -/
def inside (d : Draft κ α) : Encoder := ⟨d.outer.map Enclosing.entered, true⟩

/-- The open containers of a draft. -/
def encoder (d : Draft κ α) : Encoder :=
  match d.fields?, d.outer with
  | some fields, _ => d.inside.enter (.record fields.isEmpty false)
  | none, [] => ⟨[], !d.done.isEmpty⟩
  | none, f :: outer => ⟨f.innermost :: outer.map Enclosing.entered, true⟩

/-- What stands before the next value. -/
def front (o : WriteOptions) (d : Draft κ α) : List Char :=
  match d.outer with
  | [] => if !d.done.isEmpty then ['\n'] else []
  | .list items :: outer => Encoder.separator items.isEmpty ++ Encoder.newLine o (outer.length + 1)
  | .record _ _ :: _ => []

theorem encoder_put (hd : d.fields? = none) (a : α) : (d.put a).encoder = d.inside := by
  obtain ⟨done, outer, fields?⟩ := d
  obtain rfl : fields? = none := hd
  rcases outer with - | ⟨items | ⟨fields, key⟩, outer⟩
  · simp [put, encoder, inside]
  · simp [put, encoder, inside, Enclosing.innermost, Enclosing.entered]
  · simp [put, encoder, inside, Encoder.enter, Enclosing.entered]

/-- A value may come where no key is awaited. -/
theorem awaits (o : WriteOptions) (hd : d.fields? = none) :
    d.encoder.Awaits o d.inside (d.front o) := by
  obtain ⟨done, outer, fields?⟩ := d
  obtain rfl : fields? = none := hd
  rcases outer with - | ⟨items | ⟨fields, key⟩, outer⟩
  · exact Encoder.awaits_outside o _
  · intro name
    simp [encoder, inside, front, Encoder.beforeValue, Enclosing.innermost, Enclosing.entered]
  · intro name
    simp [encoder, inside, front, Encoder.beforeValue, Enclosing.innermost, Enclosing.entered]

/-- No value may come where a key is awaited. -/
theorem beforeValue_eq_error {fields : List (κ × α)} (hd : d.fields? = some fields)
    (name : String) :
    d.encoder.beforeValue o name = .error (.valueWithoutKey name) := by
  rw [encoder, hd]
  rfl

theorem fits_of_beginsValue {c : Call} (hc : c.beginsValue = true) :
    d.fits c = d.fields?.isNone := by
  cases c with
  | endList | field | endRecord => cases hc
  | _ => rfl

/-- The encoder accepts the calls that fit. -/
theorem exists_call_iff (d : Draft κ α) (o : WriteOptions) (c : Call) :
    (∃ r, d.encoder.call o c = .ok r) ↔ d.fits c = true := by
  cases hc : c.beginsValue with
  | true =>
    rw [fits_of_beginsValue hc]
    cases hd : d.fields? with
    | none => exact iff_of_true (Encoder.exists_call (awaits o hd) hc) rfl
    | some fields =>
      obtain ⟨s, ss, m, hsteps, hs⟩ :=
        Encoder.exists_step_eq_error (fun name => beforeValue_eq_error (o := o) hd name) hc
      rw [Encoder.call_of_error hsteps hs]
      simp
  | false =>
    obtain ⟨done, outer, fields?⟩ := d
    cases c with
    | endList | field | endRecord =>
      rcases fields? with - | fields
      · rcases outer with - | ⟨items | ⟨fields, key⟩, outer⟩ <;>
          simp [fits, encoder, Encoder.call, Call.steps, Encoder.step, Enclosing.innermost]
      · simp [fits, encoder, Encoder.call, Call.steps, Encoder.step, Encoder.enter]
    | _ => cases hc

end Draft

/-! ### Drafts of trees -/

/-- A container of trees has the meaning of one of values. -/
inductive Enclosing.Means : Enclosing JsonString Json → Enclosing String Value → Prop
  /-- A list. -/
  | list {items : List Json} {vs : List Value} (h : Json.itemValues? {} items = some vs) :
      Means (.list items) (.list vs)
  /-- A record and a key. -/
  | record {members : List (JsonString × Json)} {fields : List (String × Value)} {key : JsonString}
      {text : String} (h : Json.memberValues? {} members = some fields)
      (hkey : key.text? = some text) : Means (.record members key) (.record fields text)

/-- A draft of trees has the meaning of one of values. -/
structure Draft.Means (J : Draft JsonString Json) (d : Draft String Value) : Prop where
  done : Json.itemValues? {} J.done = some d.done
  outer : List.Forall₂ Enclosing.Means J.outer d.outer
  fields? : Option.Rel (fun members fields => Json.memberValues? {} members = some fields)
    J.fields? d.fields?

namespace Draft

variable {J : Draft JsonString Json} {d : Draft String Value}

theorem means_blank : Means blank blank := ⟨rfl, .nil, .none⟩

theorem Means.fields?_eq_none (h : J.Means d) (hd : d.fields? = none) : J.fields? = none := by
  obtain ⟨jdone, jouter, jfields?⟩ := J
  obtain ⟨done, outer, fields?⟩ := d
  obtain ⟨-, -, hfields⟩ := h
  obtain rfl : fields? = none := hd
  cases hfields
  rfl

/-- The same calls fit. -/
theorem Means.fits_eq (h : J.Means d) (c : Call) : J.fits c = d.fits c := by
  obtain ⟨jdone, jouter, jfields?⟩ := J
  obtain ⟨done, outer, fields?⟩ := d
  obtain ⟨-, houter, hfields⟩ := h
  rcases hfields with _ | - <;> rcases houter with - | ⟨⟨-⟩ | ⟨-, -⟩, -⟩ <;> cases c <;> rfl

/-- A value is put where the tree of the value is put. -/
theorem Means.put {j : Json} {v : Value} (h : J.Means d) (hd : d.fields? = none)
    (hj : j.value? {} = some v) : (J.put j).Means (d.put v) := by
  obtain ⟨jdone, jouter, jfields?⟩ := J
  obtain ⟨done, outer, fields?⟩ := d
  obtain ⟨hdone, houter, hfields⟩ := h
  obtain rfl : fields? = none := hd
  cases houter with
  | nil => exact ⟨Json.itemValues?_concat hdone hj, .nil, hfields⟩
  | cons hf houter =>
    cases hf with
    | list hitems =>
      exact ⟨hdone, .cons (.list (Json.itemValues?_concat hitems hj)) houter, hfields⟩
    | record hmembers hkey =>
      exact ⟨hdone, houter, .some (Json.memberValues?_concat hmembers hkey hj)⟩

end Draft

end Columnar
