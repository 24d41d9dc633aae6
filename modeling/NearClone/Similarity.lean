import NearClone.Alignment.Align
import NearClone.Config.Basic
import NearClone.EditDistance
import NearClone.Source.Fragment
import NearClone.Typing

/-!
How similar two fragments are: scores from the common subsequence, the edit distance and the nested
structure, the variations between them, and whether these can become typed parameters.
-/

set_option autoImplicit false
set_option relaxedAutoImplicit false

namespace NearClone

/-- The similarity of two fragments. -/
structure Similarity (α : Type) where
  lcs : α
  levenshtein : α
  structural : α
  overall : α
  leftLength : Nat
  rightLength : Nat
  differences : Differences
  typing : Typing
  /-- Some aligned pair would direct control differently. -/
  diverts : Bool := false
  deriving DecidableEq, Repr

/-- Two fragments with their similarity. -/
structure ClonePair (α : Type) where
  left : Fragment
  right : Fragment
  similarity : Similarity α
  deriving DecidableEq, Repr

namespace Similarity

variable {α : Type} [Scalar α]

/-- Scores are kept to so many decimal places, so that weighted sums compare exactly against
thresholds. -/
def places : Nat := 10

/-- Whether the two fragments can be merged: every variation has a type, and control flows alike. -/
def canRefactor (s : Similarity α) : Bool := s.typing.safe && !s.diverts

/-- The share of matches that agree in their nested structure; zero without a match. -/
def structuralScore (a : Alignment) : α :=
  if a.matched.isEmpty then Scalar.ofInt 0 else Scalar.ratio a.fine a.matched.length

/-- The similarity of two fragments without statements. -/
def empty : Similarity α where
  lcs := Scalar.ofInt 0
  levenshtein := Scalar.ofInt 0
  structural := Scalar.ofInt 0
  overall := Scalar.ofInt 0
  leftLength := 0
  rightLength := 0
  differences := {}
  typing := {}

/-- Compares two fragments. -/
def compare (weights : Weights α) (f g : Fragment) : Similarity α :=
  let longest := max f.length g.length
  if longest = 0 then empty
  else
    let alignment := Alignment.align f.statements g.statements
    let distance := EditDistance.distance f.shapes g.shapes
    let lcs : α := Scalar.ratio alignment.matched.length longest
    let levenshtein : α := Scalar.ofInt 1 - Scalar.ratio distance longest
    let structural : α := structuralScore alignment
    let differences := Differences.along f.statements g.statements alignment
    { lcs := Scalar.roundTo places lcs
      levenshtein := Scalar.roundTo places levenshtein
      structural := Scalar.roundTo places structural
      overall := Scalar.roundTo places (weights.combine lcs levenshtein structural)
      leftLength := f.length
      rightLength := g.length
      differences
      typing := Typing.ofVariations f.hints g.hints differences.variations
      diverts := (alignment.pairsOf f.statements g.statements).any AlignedPair.diverts }

end Similarity

namespace Config

variable {α : Type} [Scalar α]

/-- Whether a fragment is long enough. -/
def admitsLength (c : Config α) (f : Fragment) : Bool := c.minLines ≤ f.length

/-- Whether two compared fragments are a clone pair: both long enough, and the score at least the
threshold. -/
def accepts (c : Config α) (f g : Fragment) (s : Similarity α) : Bool :=
  c.admitsLength f && c.admitsLength g && c.threshold ≤ s.overall

end Config

end NearClone
