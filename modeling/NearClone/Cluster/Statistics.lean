import NearClone.Cluster.Basic
import NearClone.Listing.Total

/-!
Figures about a list of clusters.
-/

set_option autoImplicit false
set_option relaxedAutoImplicit false

namespace NearClone

/-- Sizes of clusters in three classes. -/
inductive SizeClass where
  | small
  | medium
  | large
  deriving DecidableEq, Repr

namespace SizeClass

/-- The written name of a class. -/
def name : SizeClass → String
  | small => "small"
  | medium => "medium"
  | large => "large"

/-- The class of a number of members: up to three, up to seven, or more. -/
def ofSize (n : Nat) : SizeClass := if n ≤ 3 then small else if n ≤ 7 then medium else large

end SizeClass

/-- Figures about a list of clusters that is not empty. -/
structure Statistics (α : Type) where
  clusters : Nat
  occurrences : Nat
  averageSize : α
  averageSimilarity : α
  saving : Int
  /-- How many clusters are in each class that occurs. -/
  sizes : List (SizeClass × Nat)
  largest : Nat
  smallest : Nat
  deriving Repr

namespace Statistics

variable {α : Type} [Scalar α]

/-- The figures about clusters; none for no clusters. -/
def ofClusters? (clusters : List (Cluster α)) : Option (Statistics α) :=
  let counts := clusters.map (·.occurrences)
  match counts with
  | [] => none
  | first :: rest =>
    let occurrences := Listing.total id counts
    some
      { clusters := clusters.length
        occurrences
        averageSize := Scalar.ratio occurrences clusters.length
        averageSimilarity := Scalar.mean (clusters.map (·.averageSimilarity))
        saving := clusters.foldr (fun c rest ↦ c.saving + rest) 0
        sizes :=
          (Listing.groupsBy SizeClass.ofSize counts).map fun (size, group) ↦ (size, group.length)
        largest := rest.foldl max first
        smallest := rest.foldl min first }

end Statistics

end NearClone
