import Columnar.Form.Text

/-!
# Reading forms

A form is an object with a member `class`, or an array whose first item is the class and
whose further items are the members of the class in order.  Unknown members are ignored,
known ones stand at most once, and annotations and key may be left out.  Inside a form the
class of a nested node may also be given by its number.

A class that is repeated, not a text, or no class at all is found as soon as it is met, so
it is reported even if the text behind it is malformed; all other faults of the form are
reported only if the whole text could be read.

## Main definitions

* `Form.ofDocument?` — the form of a document.
* `Form.Fault`, `Form.ofTextBy`, `Form.ofText` — the form of a text as a library reads it, or
  what is wrong with it.
-/

namespace Columnar.Form

/-! ### Parts -/

/-- The classes, by number. -/
inductive Class
  /-- No elements. -/
  | empty
  /-- A flat buffer. -/
  | flat
  /-- Lists. -/
  | list
  /-- Elements that may be missing. -/
  | option
  /-- Records and tuples. -/
  | record
  /-- Elements of several kinds. -/
  | union
  deriving DecidableEq, Repr

namespace Class

/-- The class of a name. -/
def ofName? (s : String) : Option Class :=
  if s = "EmptyArray" then some empty
  else if s = "NumpyArray" then some flat
  else if s = "ListOffsetArray" then some list
  else if s = "IndexedOptionArray" then some option
  else if s = "RecordArray" then some record
  else if s = "UnionArray" then some union
  else none

/-- The class of a number. -/
def ofNumber? (n : Int) : Option Class :=
  if n < 0 then none else [empty, flat, list, option, record, union][n.toNat]?

/-- The class that a document names or numbers. -/
def ofDocument? : Document → Option Class
  | .string s => ofName? s
  | .int n => ofNumber? n
  | _ => none

/-- The members of a class other than `class`, in order. -/
def members : Class → List String
  | empty => ["parameters", "form_key"]
  | flat => ["primitive", "parameters", "form_key"]
  | list => ["offsets", "content", "parameters", "form_key"]
  | option => ["index", "content", "parameters", "form_key"]
  | record => ["contents", "keys", "parameters", "form_key"]
  | union => ["tags", "index", "contents", "parameters", "form_key"]

end Class

/-- A primitive, by its name. -/
def primitiveOf? : Document → Option Primitive
  | .string s => Primitive.ofName? s
  | _ => none

/-- The width of an index: its name, or an object of its name alone with nothing in it. -/
def widthOf? : Document → Option IndexWidth
  | .string s => IndexWidth.ofName? s
  | .object [(s, .null)] => IndexWidth.ofName? s
  | .object [(s, .object [])] => IndexWidth.ofName? s
  | _ => none

/-- Annotations, each brought into sorted order; they may be left out. -/
def parametersOf? : Option Document → Option Parameters
  | none => some []
  | some (.object ms) => some (tableOf (ms.map fun (k, d) => (k, d.sorted)))
  | some _ => none

/-- A key, which may be `null` or left out. -/
def keyOf? : Option Document → Option (Option String)
  | none => some none
  | some .null => some none
  | some (.string s) => some (some s)
  | some _ => none

/-- Several texts. -/
def stringsOf? : List Document → Option (List String)
  | [] => some []
  | .string s :: rest => (stringsOf? rest).map (s :: ·)
  | _ :: _ => none

/-- The names of the fields of records; tuples have none. -/
def fieldNamesOf? : Option Document → Option (Option (List String))
  | none => some none
  | some .null => some none
  | some (.array items) => (stringsOf? items).map some
  | some _ => none

/-! ### Forms of documents -/

/-- How often a name stands among members. -/
def occurrences (name : String) (ms : List (String × Document)) : Nat :=
  ms.countP fun m => m.1 == name

/-- Members named by position; there may not be more of them than names. -/
def named? : List String → List Document → Option (List (String × Document))
  | _, [] => some []
  | [], _ :: _ => none
  | n :: ns, d :: ds => (named? ns ds).map ((n, d) :: ·)

/-- The class of a node, its members, and whether all of them were given by position. -/
def nodeOf? : Document → Option (Class × List (String × Document) × Bool)
  | .object ms =>
    if occurrences "class" ms = 1 then
      match (lookup ms "class").bind Class.ofDocument? with
      | some c =>
        if c.members.all fun name => decide (occurrences name ms ≤ 1) then some (c, ms, false)
        else none
      | none => none
    else none
  | .array (tag :: items) =>
    match Class.ofDocument? tag with
    | some c => (named? c.members items).map (c, ·, true)
    | none => none
  | _ => none

/-- The label among the members of a node. -/
def labelOf? (ms : List (String × Document)) : Option FormLabel := do
  let parameters ← parametersOf? (lookup ms "parameters")
  let key ← keyOf? (lookup ms "form_key")
  return ⟨parameters, key⟩

mutual

/-- The form of a document, whose size is fuel enough. -/
def ofDocument? : Nat → Document → Option Form
  | 0, _ => none
  | fuel + 1, d => do
    let (c, ms, byPosition) ← nodeOf? d
    let label ← labelOf? ms
    match c with
    | .empty => return .empty label
    | .flat => return .flat (← (lookup ms "primitive").bind primitiveOf?) label
    | .list =>
      let width ← (lookup ms "offsets").bind widthOf?
      let content ← lookup ms "content"
      return .list width (← ofDocument? fuel content) label
    | .option =>
      let width ← (lookup ms "index").bind widthOf?
      let content ← lookup ms "content"
      return .option width (← ofDocument? fuel content) label
    | .record =>
      let contents ← lookup ms "contents"
      if byPosition && (lookup ms "keys").isNone then none
      else
        let keys ← fieldNamesOf? (lookup ms "keys")
        return .record (← ofDocuments? fuel contents) keys label
    | .union =>
      let tags ← (lookup ms "tags").bind widthOf?
      let index ← (lookup ms "index").bind widthOf?
      let contents ← lookup ms "contents"
      return .union tags index (← ofDocuments? fuel contents) label

/-- The forms of the items of an array. -/
def ofDocuments? : Nat → Document → Option (List Form)
  | 0, _ => none
  | fuel + 1, .array items => ofItems? fuel items
  | _ + 1, _ => none

/-- The forms of several documents. -/
def ofItems? : Nat → List Document → Option (List Form)
  | _, [] => some []
  | 0, _ :: _ => none
  | fuel + 1, d :: ds => do return (← ofDocument? fuel d) :: (← ofItems? fuel ds)

end

/-! ### Forms of texts -/

/-- What can be wrong with the text of a form. -/
inductive Fault
  /-- The text ends early. -/
  | early
  /-- The text is not one document. -/
  | malformed
  /-- The document is no form. -/
  | notAForm
  deriving DecidableEq, Repr

/-- The fault of a text that could not be read, unless its class settles it before. -/
def Fault.ofEnding : Document.Ending → Fault
  | .early => .early
  | .malformed => .malformed

/-- Whether a value that starts with the given character can be a text. -/
def opensNesting (c : Option Char) : Bool := c == some '[' || c == some '\x7b'

/-- Whether the document that names the class of the outermost node names one; here a number
does not. -/
def namesClass (d : Document) : Bool := ((d.asString?).bind Class.ofName?).isSome

/-- Whether the members read before a failure show already that they make no form. -/
def settled (outer : Document.Outer) : Bool :=
  match outer with
  | .scalar => false
  | .array [] next => opensNesting next
  | .array (tag :: _) _ => !namesClass tag
  | .object ms key next =>
    (ms.any fun m => m.1 == "class" && !namesClass m.2)
      || decide (2 ≤ occurrences "class" ms)
      || (key == some "class" && (decide (1 ≤ occurrences "class" ms) || opensNesting next))

/-- Whether the class of the outermost node is given by a text. -/
def classByName : Document → Bool
  | .object ms => ((lookup ms "class").map namesClass).getD false
  | .array (tag :: _) => namesClass tag
  | _ => false

/-- The form of a whole text, as a library reads it. -/
def ofTextBy (lib : DocumentLibrary) (text : String) : Except Fault Form :=
  match lib.read text with
  | .error f => .error (if settled f.outer then .notAForm else .ofEnding f.ending)
  | .ok (d, rest) =>
    if classByName d then
      match ofDocument? d.size d with
      | none => .error .notAForm
      | some form => if (Document.skipBlanks rest).isEmpty then .ok form else .error .malformed
    else .error .notAForm

/-- The form of a whole text. -/
def ofText (text : String) : Except Fault Form := ofTextBy .standard text

end Columnar.Form
