import NearClone.Cluster.Recommendation
import NearClone.Listing.Distinct
import NearClone.Similarity

/-!
Clusters: clone pairs that hang together through shared fragments.
-/

set_option autoImplicit false
set_option relaxedAutoImplicit false

namespace NearClone

/-- A connected group of clone pairs. -/
structure Cluster (α : Type) where
  /-- The member that comes first in the source. -/
  primary : Fragment
  pairs : List (ClonePair α)
  /-- The lines that are saved by keeping one copy. -/
  saving : Int
  recommendation : Option (Recommendation α) := none
  deriving DecidableEq, Repr

namespace ClonePair

variable {α : Type}

/-- The two fragments of a pair. -/
def ends (p : ClonePair α) : List Fragment := [p.left, p.right]

end ClonePair

namespace Cluster

variable {α : Type} [Scalar α]

/-- The fragments of clone pairs, the first one seen for every location. -/
def fragmentsOf (pairs : List (ClonePair α)) : List Fragment :=
  Listing.firstPer (·.location) (pairs.flatMap ClonePair.ends)

/-- The member fragments by position. -/
def members (c : Cluster α) : List Fragment :=
  Listing.sortBy Fragment.compareStart (fragmentsOf c.pairs)

/-- The number of members. -/
def occurrences (c : Cluster α) : Nat := c.members.length

/-- The mean overall score of the pairs; zero without a pair. -/
def averageSimilarity (c : Cluster α) : α := Scalar.mean (c.pairs.map (·.similarity.overall))

/-- By the lines saved and the number of pairs, both descending, then by the start of the primary
member. -/
def compareRank : Cluster α → Cluster α → Ordering :=
  compareLex (compareOn fun c ↦ -c.saving) <|
    compareLex (compareOn fun c ↦ -(c.pairs.length : Int))
      fun c d ↦ Fragment.compareStart c.primary d.primary

end Cluster

namespace Config

variable {α : Type}

/-- The lines saved by keeping one copy of so many statements and calling it at every occurrence. -/
def saving (c : Config α) (occurrences statements : Int) : Int :=
  max 0 (occurrences * statements - (statements + c.callOverhead * occurrences))

end Config

end NearClone
