import Columnar.Json.ValueText
import Columnar.Proofs.Json.Spelling
import Columnar.Proofs.Utf8

/-!
# What calls add to a text

A call adds text at the end and leads to another state of the open containers.  A value adds its
text behind what stands before it: a line break, a comma, both or nothing.  A container adds what
stands in it between its marks, and the containers around it stay as they are.

## Main definitions

* `Encoder.Adds` — the text that calls add.
* `Encoder.Awaits` — a value may come next.
* `IsBlankText`, `WriteOptions.IsBlank` — blanks, and lines that are indented by them.

## Main results

* `Encoder.Adds.callAll` — a writer keeps what its calls add.
* `Encoder.Awaits.adds_value`, `Encoder.Awaits.adds_list`, `Encoder.Awaits.adds_record` — **what
  values and containers add.**
-/

namespace Columnar

/-! ### What calls add -/

namespace Encoder

/-- Calls one after another add a text and lead to another state. -/
inductive Adds (o : WriteOptions) : Encoder → List Call → Encoder → List Char → Prop
  /-- No calls. -/
  | nil (e : Encoder) : Adds o e [] e []
  /-- A call and those behind it. -/
  | cons {e e₁ e' : Encoder} {c : Call} {cs : List Call} {text more : List Char}
      (hc : e.call o c = .ok (e₁, text)) (h : Adds o e₁ cs e' more) :
      Adds o e (c :: cs) e' (text ++ more)

variable {o : WriteOptions} {e e₁ e₂ e' : Encoder} {c : Call} {cs cs' : List Call}
  {before text more : List Char}

theorem Adds.single (hc : e.call o c = .ok (e₁, text)) : Adds o e [c] e₁ text := by
  have h := Adds.cons hc (.nil e₁)
  rwa [List.append_nil] at h

theorem Adds.append (h : Adds o e cs e₁ text) (h' : Adds o e₁ cs' e' more) :
    Adds o e (cs ++ cs') e' (text ++ more) := by
  induction h with
  | nil => exact h'
  | cons hc _ ih =>
    rw [List.append_assoc]
    exact .cons hc (ih h')

/-- A writer keeps what its calls add. -/
theorem Adds.callAll (h : Adds o e cs e' text) (s : String) :
    TextWriter.callAll ⟨o, e, s⟩ cs = .ok ⟨o, e', s ++ String.ofList text⟩ := by
  induction h generalizing s with
  | nil => simp [TextWriter.callAll]
  | cons hc _ ih => simp [TextWriter.callAll, TextWriter.call, hc, ih, String.append_assoc]

/-- A value may come next, and something stands before it. -/
def Awaits (o : WriteOptions) (e e₁ : Encoder) (before : List Char) : Prop :=
  ∀ name, e.beforeValue o name = .ok (e₁, before)

/-- A call that writes a whole value. -/
theorem Awaits.adds_value {name : String} (h : Awaits o e e₁ before)
    (hc : c.steps o = [.value name text]) : Adds o e [c] e₁ (before ++ text) := by
  refine .single ?_
  rw [call, hc, steps_singleton, step, h]
  rfl

/-- A list and what stands in it. -/
theorem Awaits.adds_list {isEmpty : Bool} (h : Awaits o e e₁ before)
    (hitems : Adds o (e₁.enter (.list true)) cs (e₁.enter (.list isEmpty)) text) :
    Adds o e (.beginList :: cs ++ [.endList]) e₁
      (before ++ ('[' :: text ++ (lastLine o isEmpty e₁.stack.length ++ [']']))) := by
  have hopen : e.call o .beginList = .ok (e₁.enter (.list true), before ++ ['[']) := by
    rw [call, Call.steps, steps_singleton, step, h]
    rfl
  have hclose : (e₁.enter (.list isEmpty)).call o .endList
      = .ok (e₁, lastLine o isEmpty e₁.stack.length ++ [']']) := by
    rw [call, Call.steps, steps_singleton]
    rfl
  have hall := (Adds.cons hopen hitems).append (.single hclose)
  simpa using hall

/-- A record and what stands in it. -/
theorem Awaits.adds_record {isEmpty : Bool} (h : Awaits o e e₁ before)
    (hfields : Adds o (e₁.enter (.record true false)) cs (e₁.enter (.record isEmpty false)) text) :
    Adds o e (.beginRecord :: cs ++ [.endRecord]) e₁
      (before ++ ('\x7b' :: text ++ (lastLine o isEmpty e₁.stack.length ++ ['\x7d']))) := by
  have hopen : e.call o .beginRecord = .ok (e₁.enter (.record true false), before ++ ['\x7b']) := by
    rw [call, Call.steps, steps_singleton, step, h]
    rfl
  have hclose : (e₁.enter (.record isEmpty false)).call o .endRecord
      = .ok (e₁, lastLine o isEmpty e₁.stack.length ++ ['\x7d']) := by
    rw [call, Call.steps, steps_singleton]
    rfl
  have hall := (Adds.cons hopen hfields).append (.single hclose)
  simpa using hall

/-- A value is awaited in a list. -/
theorem awaits_list (o : WriteOptions) (e : Encoder) (isEmpty : Bool) :
    Awaits o (e.enter (.list isEmpty)) (e.enter (.list false))
      (separator isEmpty ++ newLine o (e.stack.length + 1)) := fun _ => rfl

/-- A value is awaited behind a key. -/
theorem awaits_record (o : WriteOptions) (e : Encoder) (isEmpty : Bool) :
    Awaits o (e.enter (.record isEmpty true)) (e.enter (.record isEmpty false)) [] := fun _ => rfl

/-- A value is awaited outside of all containers. -/
theorem awaits_outside (o : WriteOptions) (hasValues : Bool) :
    Awaits o ⟨[], hasValues⟩ ⟨[], true⟩ (if hasValues then ['\n'] else []) := fun _ => rfl

/-- What stands between a key and its value. -/
def behindKey (o : WriteOptions) : List Char := if o.pretty then [' '] else []

theorem call_field (o : WriteOptions) (e : Encoder) (isEmpty : Bool) (key : String) :
    (e.enter (.record isEmpty false)).call o (.field key) = .ok (e.enter (.record false true),
      separator isEmpty ++ newLine o (e.stack.length + 1) ++ quotedText key
        ++ ':' :: behindKey o) := by
  rw [call, Call.steps, steps_singleton]
  rfl

end Encoder

/-! ### Blanks -/

/-- Blanks as characters. -/
def IsBlankText (cs : List Char) : Prop := ∀ c ∈ cs, c = ' ' ∨ c = '\t' ∨ c = '\n' ∨ c = '\r'

/-- Lines are indented by blanks, if there are lines. -/
def WriteOptions.IsBlank (o : WriteOptions) : Prop := o.pretty = true → IsBlankText o.indent.toList

theorem IsBlankText.encode {cs : List Char} (h : IsBlankText cs) :
    ∀ b ∈ Utf8.encode cs, isBlankByte b = true := by
  intro b hb
  obtain ⟨c, hc, hbyte⟩ := List.mem_flatMap.mp hb
  rcases h c hc with rfl | rfl | rfl | rfl
  all_goals
    obtain rfl := List.mem_singleton.mp hbyte
    decide

namespace WriteOptions

variable {o : WriteOptions}

theorem IsBlank.newLine (h : o.IsBlank) (depth : Nat) :
    IsBlankText (Encoder.newLine o depth) := by
  unfold Encoder.newLine
  split
  · next hp =>
    intro c hc
    rcases List.mem_cons.mp hc with rfl | hc
    · simp
    · obtain ⟨cs, hcs, hmem⟩ := List.mem_flatten.mp hc
      rw [List.eq_of_mem_replicate hcs] at hmem
      exact h hp c hmem
  · nofun

theorem IsBlank.lastLine (h : o.IsBlank) (isEmpty : Bool) (depth : Nat) :
    IsBlankText (Encoder.lastLine o isEmpty depth) := by
  unfold Encoder.lastLine
  split
  · nofun
  · exact h.newLine depth

theorem isBlankText_behindKey (o : WriteOptions) : IsBlankText (Encoder.behindKey o) := by
  unfold Encoder.behindKey
  split
  · simp [IsBlankText]
  · nofun

end WriteOptions

end Columnar
