import NearClone.Listing.Shared
import NearClone.Similarity

/-!
Cheap tests that spare a comparison. A pair is turned away when it must not be compared, or when
even the best score that its lengths or its shapes allow stays below the threshold.
-/

set_option autoImplicit false
set_option relaxedAutoImplicit false

namespace NearClone

/-- The tests. -/
inductive Filter where
  /-- The fragments share no line of one file. -/
  | overlap
  /-- The fragments are within the scope in force. -/
  | scope
  /-- The lengths are close enough. -/
  | size
  /-- The fragments share enough shapes. -/
  | tokens
  deriving DecidableEq, Repr

namespace Filter

variable {α : Type} [Scalar α]

/-- How far a bound may stay below the threshold, to make up for rounding. -/
def slack : α := 1e-9

/-- The best overall score for a share of matching statements: that share caps the score of the
common subsequence and that of the edit distance, and one caps the structural score. -/
def bound (w : Weights α) (share : α) : α := (w.lcs + w.levenshtein) * share + w.structural

/-- Whether so many of the statements of the longer fragment are enough to reach the threshold. -/
def reaches (c : Config α) (part longest : Nat) : Bool :=
  longest ≠ 0 && c.threshold - slack ≤ bound c.weights (Scalar.ratio part longest)

/-- Whether two fragments may be compared under a scope. -/
def withinScope (f g : Fragment) : Scope → Bool
  | .project => true
  | .file => f.file = g.file
  | .classBody => f.file = g.file && f.home = g.home
  | .method => f.file = g.file && f.method.isSome && f.method = g.method

/-- Whether a test lets a pair pass. -/
def admits (c : Config α) (f g : Fragment) : Filter → Bool
  | overlap => !f.location.overlaps g.location
  | scope => withinScope f g c.effectiveScope
  | size => reaches c (min f.length g.length) (max f.length g.length)
  | tokens => reaches c (Listing.sharedCount f.shapes g.shapes) (max f.length g.length)

/-- The tests of a survey, the cheapest first. -/
def standard : List Filter := [overlap, scope, size, tokens]

/-- Whether all tests let a pair pass. -/
def admitsAll (c : Config α) (filters : List Filter) (f g : Fragment) : Bool :=
  filters.all (admits c f g)

@[simp]
theorem admitsAll_nil (c : Config α) (f g : Fragment) : admitsAll c [] f g = true := rfl

end Filter

end NearClone
