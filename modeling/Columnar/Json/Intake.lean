import Columnar.Builder
import Columnar.Json.Feed
import Columnar.Json.Grammar

/-!
# Taking in JSON text

A builder takes in a text by the pushes that its tokens stand for, in one pass.  Whatever
goes wrong ends the pass, and what was pushed before stays in the builder.

## Main definitions

* `Intake` — the builder after a text, and the outcome.
* `Builder.takeTokens` — the pushes of some tokens.
* `Builder.pushBytes`, `Builder.pushSource` — a text as a whole, and from a source.
-/

namespace Columnar

/-- The builder after a text. -/
structure Intake where
  /-- The builder. -/
  builder : Builder
  /-- The number of values in the text, or why it was not taken in to its end. -/
  outcome : Except JsonError Nat

/-- The outcome of a text behind its last token. -/
def Ending.outcome (s : Progress) : Ending → Except JsonError Nat
  | finished offset => s.finish offset
  | unscannable e => .error (.ofScan e)
  | unreadable offset words => .error ⟨.io words, ⟨offset, 0⟩⟩

namespace Builder

/-- A builder after the tokens of a text that has been followed up to here. -/
def takeTokens (o : ReadOptions) (ending : Ending) (s : Progress) (b : Builder) :
    List Located → Intake
  | [] => ⟨b, ending.outcome s⟩
  | t :: ts =>
    match s.advance o t with
    | .error e => ⟨b, .error e⟩
    | .ok (s', none) => b.takeTokens o ending s' ts
    | .ok (s', some p) =>
      match b.push p with
      | .ok b' => b'.takeTokens o ending s' ts
      | .error r => ⟨r.state, .error ⟨.builder r.error, t.span⟩⟩

/-- A builder after all tokens of a text. -/
def takeStream (b : Builder) (o : ReadOptions) (stream : TokenStream) : Intake :=
  b.takeTokens o stream.ending .start stream.tokens

/-- A builder after a text given as a whole. -/
def pushBytes (b : Builder) (o : ReadOptions) (bytes : List UInt8) : Intake :=
  b.takeStream o (tokensOf bytes)

/-- A builder after a text that comes from a source. -/
def pushSource (b : Builder) (o : ReadOptions) (s : Source) : Intake :=
  b.takeStream o (Feed.ofSource s o.bufferSize).tokens

end Builder

end Columnar
