import Columnar.Document.Reading
import Columnar.Document.Text

/-!
# Libraries of documents

Documents are printed and read by a library.  Forms only say which document they are, so what a
form is as a text, and what is read of it, depends on the library; the programs run with one that
prints no blanks and reads 127 levels of nesting.

## Main definitions

* `DocumentLibrary` — printing and reading.
* `DocumentLibrary.standard` — the library of the programs.
-/

namespace Columnar

/-- A library of documents. -/
structure DocumentLibrary where
  /-- The text of a document. -/
  print : Document → String
  /-- The document at the front of a text, and the text behind it. -/
  read : String → Document.Read Document.Failure Document

/-- The levels of nesting that the library of the programs reads. -/
def Document.maxNesting : Nat := 127

/-- The library of the programs. -/
def DocumentLibrary.standard : DocumentLibrary where
  print d := d.text
  read := Document.read Document.maxNesting

end Columnar
