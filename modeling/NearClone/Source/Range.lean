/-!
Where a piece of code stands: lines and columns of a file. Line numbers are integers of any size.
-/

set_option autoImplicit false
set_option relaxedAutoImplicit false

namespace NearClone

/-- From a start line and column to an end line and column, both ends included. -/
structure SourceRange where
  startLine : Int
  endLine : Int
  startColumn : Int := 1
  endColumn : Int := 1
  deriving DecidableEq, Repr

namespace SourceRange

/-- Whether two ranges share a line. -/
def overlaps (r s : SourceRange) : Bool :=
  !(r.endLine < s.startLine || s.endLine < r.startLine)

/-- A range that ends before it starts. -/
def isInverted (r : SourceRange) : Bool := r.endLine < r.startLine

/-- By start line, end line, start column and end column. -/
def compare : SourceRange → SourceRange → Ordering :=
  compareLex (compareOn (·.startLine)) <| compareLex (compareOn (·.endLine)) <|
    compareLex (compareOn (·.startColumn)) (compareOn (·.endColumn))

theorem overlaps_comm (r s : SourceRange) : r.overlaps s = s.overlaps r := by
  simp [overlaps, Bool.and_comm]

end SourceRange

/-- A range of a file. -/
structure Location where
  file : String
  range : SourceRange
  deriving DecidableEq, Repr

namespace Location

/-- By file, then by range. -/
def compare : Location → Location → Ordering :=
  compareLex (compareOn (·.file)) fun a b ↦ SourceRange.compare a.range b.range

/-- By start line, then by file and start column. Locations that differ in their ends alone count
as equal. -/
def compareStart : Location → Location → Ordering :=
  compareLex (compareOn (·.range.startLine)) <|
    compareLex (compareOn (·.file)) (compareOn (·.range.startColumn))

/-- By start, then by all that remains: the reading order. -/
def compareReading : Location → Location → Ordering :=
  compareLex compareStart compare

/-- Whether two locations share a line of one file. -/
def overlaps (a b : Location) : Bool := a.file = b.file && a.range.overlaps b.range

theorem overlaps_comm (a b : Location) : a.overlaps b = b.overlaps a := by
  simp only [overlaps, SourceRange.overlaps_comm a.range b.range]
  congr 1
  simp [eq_comm]

end Location

end NearClone
