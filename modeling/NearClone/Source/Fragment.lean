import NearClone.Source.Range
import NearClone.Source.Statement

/-!
Fragments: consecutive statements of one method, with their place in the source.
-/

set_option autoImplicit false
set_option relaxedAutoImplicit false

namespace NearClone

/-- Consecutive statements of one method body. `hints` gives declared types of names; the first
entry of a name counts. -/
structure Fragment where
  statements : List Statement
  location : Location
  method : Option String := none
  owner : Option String := none
  hints : List (String × String) := []
  deriving DecidableEq, Repr

namespace Fragment

/-- The number of statements. -/
def length (f : Fragment) : Nat := f.statements.length

/-- The shapes of the statements, in order. -/
def shapes (f : Fragment) : List String := f.statements.map (·.shape)

/-- The file that holds the fragment. -/
def file (f : Fragment) : String := f.location.file

/-- The place of the fragment in its file. -/
def range (f : Fragment) : SourceRange := f.location.range

/-- A fragment without statements, or with a range that ends before it starts. -/
def isMalformed (f : Fragment) : Bool := f.statements.isEmpty || f.range.isInverted

/-- The class around the fragment, or its file where no class is named. -/
def home (f : Fragment) : String :=
  match f.owner with
  | some name => if name.isEmpty then f.file else name
  | none => f.file

/-- By start line, file and start column. -/
def compareStart (f g : Fragment) : Ordering := f.location.compareStart g.location

/-- By reading order of the locations. -/
def compareReading (f g : Fragment) : Ordering := f.location.compareReading g.location

end Fragment

end NearClone
