import Columnar.Form
import Columnar.Document.Library

/-!
# Forms as text

A form is written as an object: first its class, then what is particular to the class, then
its annotations if it has any, and last its key or `null`.

## Main definitions

* `Form.toDocument` — a form as a document.
* `Form.textBy`, `Form.text` — a form as text, as a library prints it.
-/

namespace Columnar.Form

/-- The annotations and the key of a node, as members of its object. -/
def labelMembers (l : FormLabel) : List (String × Document) :=
  (if l.parameters.isEmpty then [] else [("parameters", Document.object l.parameters)])
    ++ [("form_key", (l.key?.map Document.string).getD .null)]

mutual

/-- A form as a document. -/
def toDocument : Form → Document
  | .empty l => .object (("class", .string "EmptyArray") :: labelMembers l)
  | .flat p l =>
    .object (("class", .string "NumpyArray") :: ("primitive", .string p.name) :: labelMembers l)
  | .list o c l =>
    .object (("class", .string "ListOffsetArray") :: ("offsets", .string o.name)
      :: ("content", toDocument c) :: labelMembers l)
  | .option i c l =>
    .object (("class", .string "IndexedOptionArray") :: ("index", .string i.name)
      :: ("content", toDocument c) :: labelMembers l)
  | .record cs keys l =>
    .object (("class", .string "RecordArray") :: ("contents", .array (toDocuments cs))
      :: ("keys", (keys.map fun ks => Document.array (ks.map .string)).getD .null)
      :: labelMembers l)
  | .union t i cs l =>
    .object (("class", .string "UnionArray") :: ("tags", .string t.name)
      :: ("index", .string i.name) :: ("contents", .array (toDocuments cs)) :: labelMembers l)

/-- Several forms as documents. -/
def toDocuments : List Form → List Document
  | [] => []
  | f :: fs => toDocument f :: toDocuments fs

end

/-- The text of a form, as a library prints it. -/
def textBy (lib : DocumentLibrary) (f : Form) : String := lib.print f.toDocument

/-- The text of a form. -/
def text (f : Form) : String := f.textBy .standard

end Columnar.Form
