import NearClone.Listing.Sorted

/-!
An alignment of two lists of statements, by positions.
-/

set_option autoImplicit false
set_option relaxedAutoImplicit false

namespace NearClone

/-- Which positions of two lists belong together. -/
structure Alignment where
  /-- Pairs of equal shape. -/
  matched : List (Nat × Nat) := []
  /-- Pairs that stand at the same place of a gap between matches. -/
  substituted : List (Nat × Nat) := []
  /-- Positions of the first list without a partner. -/
  leftOnly : List Nat := []
  /-- Positions of the second list without a partner. -/
  rightOnly : List Nat := []
  /-- How many matches agree in their fine shape too. -/
  fine : Nat := 0
  deriving DecidableEq, Repr

namespace Alignment

/-- Pairs of positions by the first component, then by the second. -/
def comparePairs : Nat × Nat → Nat × Nat → Ordering :=
  compareLex (compareOn (·.1)) (compareOn (·.2))

/-- All pairs, matched or substituted, in ascending order. -/
def aligned (a : Alignment) : List (Nat × Nat) :=
  Listing.sortBy comparePairs (a.matched ++ a.substituted)

/-- The same alignment seen from the second list. -/
def swapped (a : Alignment) : Alignment where
  matched := a.matched.map Prod.swap
  substituted := a.substituted.map Prod.swap
  leftOnly := a.rightOnly
  rightOnly := a.leftOnly
  fine := a.fine

@[simp]
theorem swapped_swapped (a : Alignment) : a.swapped.swapped = a := by
  cases a
  simp [swapped]

end Alignment

end NearClone
