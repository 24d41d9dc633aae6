import NearClone.Document.Basic
import NearClone.Source.Fragment

/-!
Fragments as documents.
-/

set_option autoImplicit false
set_option relaxedAutoImplicit false

namespace NearClone

variable {α : Type}

/-- A range as a document. -/
def SourceRange.document (r : SourceRange) : Document α :=
  .object
    [("start_line", .int r.startLine),
     ("end_line", .int r.endLine),
     ("start_column", .int r.startColumn),
     ("end_column", .int r.endColumn)]

/-- A fragment as a document; of its statements only the texts are kept. -/
def Fragment.document (f : Fragment) : Document α :=
  .object
    [("source_file", .text f.file),
     ("range", f.range.document),
     ("containing_method", .ofText? f.method),
     ("containing_class", .ofText? f.owner),
     ("statement_count", .nat f.length),
     ("statements", .texts (f.statements.map (·.text)))]

end NearClone
