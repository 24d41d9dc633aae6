import NearClone.Alignment.Basic
import NearClone.Alignment.Gap
import NearClone.Alignment.Trail

/-!
Aligning two lists of statements. Equally good chains are told apart by always starting from the
list that comes first in the order of lists, so exchanging the lists exchanges the two sides of the
alignment and changes nothing else.
-/

set_option autoImplicit false
set_option relaxedAutoImplicit false

namespace NearClone.Alignment

/-- The alignment that a chain of matches gives. -/
def ofTrail (n m : Nat) (trail : Trail) : Alignment :=
  let chain := trail.chain.reverse
  let between := gaps n m 0 0 chain
  { matched := chain
    substituted := between.flatMap Gap.paired
    leftOnly := between.flatMap Gap.leftOver
    rightOnly := between.flatMap Gap.rightOver
    fine := trail.fine }

/-- The alignment of two lists, preferring to skip statements of the first one. -/
def directed (ss ts : List Statement) : Alignment :=
  ofTrail ss.length ts.length (bestTrail ss.reverse ts.reverse)

/-- The alignment of two lists of statements. -/
def align (ss ts : List Statement) : Alignment :=
  if (Statement.compareLists ts ss).isLT then (directed ts ss).swapped else directed ss ts

end NearClone.Alignment
