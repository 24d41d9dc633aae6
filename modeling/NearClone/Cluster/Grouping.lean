import NearClone.Cluster.Basic
import NearClone.Forest

/-!
Grouping clone pairs into clusters. Every location is a node of a forest, every pair joins two
nodes, and the pairs of one tree make a cluster.
-/

set_option autoImplicit false
set_option relaxedAutoImplicit false

namespace NearClone.Cluster

variable {α : Type} [Scalar α]

/-- The number of a fragment among nodes, by location. -/
def nodeOf (nodes : List Fragment) (f : Fragment) : Nat :=
  nodes.findIdx fun n ↦ n.location = f.location

/-- The forest in which the two ends of every pair are joined. -/
def forestOf (nodes : List Fragment) (pairs : List (ClonePair α)) : Forest :=
  pairs.foldl (fun forest p ↦ forest.union (nodeOf nodes p.left) (nodeOf nodes p.right))
    (Forest.singletons nodes.length)

/-- The cluster of the pairs of one tree, given the nodes of that tree. -/
def ofTree? (c : Config α) (nodes : List Fragment) (pairs : List (ClonePair α)) :
    Option (Cluster α) :=
  (Listing.least? Fragment.compareStart nodes).map fun primary ↦
    { primary, pairs, saving := c.saving nodes.length primary.length }

/-- The clusters of clone pairs, those that save most first. -/
def group (c : Config α) (pairs : List (ClonePair α)) : List (Cluster α) :=
  let nodes := fragmentsOf pairs
  let forest := forestOf nodes pairs
  let treeOf : Fragment → Nat := fun f ↦ forest.root (nodeOf nodes f)
  let trees := Listing.groupsBy (fun p : ClonePair α ↦ treeOf p.left) pairs
  let clusters := trees.filterMap fun (tree, members) ↦
    ofTree? c (nodes.filter fun f ↦ treeOf f = tree) members
  Listing.sortBy compareRank clusters

end NearClone.Cluster
