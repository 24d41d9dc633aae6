import NearClone.Number.Scalar

/-!
The weights of the three component scores in the overall score.
-/

set_option autoImplicit false
set_option relaxedAutoImplicit false

namespace NearClone

/-- Weights of the common subsequence, the edit distance and the nested structure. -/
structure Weights (α : Type) where
  lcs : α
  levenshtein : α
  structural : α
  deriving DecidableEq, Repr

namespace Weights

variable {α : Type} [Scalar α]

/-- A third each. -/
def balanced : Weights α :=
  let third : α := Scalar.ofInt 1 / Scalar.ofInt 3
  ⟨third, third, third⟩

/-- The weighted sum of three scores. -/
def combine (w : Weights α) (lcs levenshtein structural : α) : α :=
  w.lcs * lcs + w.levenshtein * levenshtein + w.structural * structural

/-- The sum of the weights. -/
def total (w : Weights α) : α := w.lcs + w.levenshtein + w.structural

/-- How far the sum of the weights may be from one. -/
def tolerance : α := 1e-6

/-- Whether the weights sum to one, up to the tolerance. -/
def isNormalized (w : Weights α) : Bool :=
  !(tolerance < w.total - Scalar.ofInt 1 || tolerance < Scalar.ofInt 1 - w.total)

end Weights

end NearClone
