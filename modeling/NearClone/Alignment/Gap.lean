/-!
The gaps that a chain of matches leaves: before the first match, between neighbours and after the
last one. Within a gap statements are paired by their place, and what is left over on the longer
side has no partner.
-/

set_option autoImplicit false
set_option relaxedAutoImplicit false

namespace NearClone.Alignment

/-- The positions between two matches: `left` from `leftStart` on, `right` from `rightStart` on. -/
structure Gap where
  leftStart : Nat
  leftEnd : Nat
  rightStart : Nat
  rightEnd : Nat
  deriving DecidableEq, Repr

namespace Gap

/-- The positions of the first list. -/
def left (g : Gap) : List Nat := List.range' g.leftStart (g.leftEnd - g.leftStart)

/-- The positions of the second list. -/
def right (g : Gap) : List Nat := List.range' g.rightStart (g.rightEnd - g.rightStart)

/-- The positions that stand at the same place. -/
def paired (g : Gap) : List (Nat × Nat) := g.left.zip g.right

/-- The positions of the first list beyond the end of the second side. -/
def leftOver (g : Gap) : List Nat := g.left.drop g.right.length

/-- The positions of the second list beyond the end of the first side. -/
def rightOver (g : Gap) : List Nat := g.right.drop g.left.length

end Gap

/-- The gaps of an ascending chain of matches in lists of lengths `n` and `m`, from the positions
`i` and `j` on. -/
def gaps (n m : Nat) : (i j : Nat) → List (Nat × Nat) → List Gap
  | i, j, [] => [⟨i, n, j, m⟩]
  | i, j, (a, b) :: rest => ⟨i, a, j, b⟩ :: gaps n m (a + 1) (b + 1) rest

end NearClone.Alignment
