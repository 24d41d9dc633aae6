import Mathlib
import NearClone.Cluster.Statistics
import NearClone.Proofs.Cluster.Containment
import NearClone.Proofs.Forest.Count
import NearClone.Proofs.Listing.Shared

/-!
# Figures about clusters

The figures about a list of clusters are sums over it, its least and its greatest cluster size, and
the numbers of clusters in each class of sizes (`Statistics.exists_summarizes`), so that the mean
size lies between the least and the greatest one (`Statistics.Summarizes.smallest_mul_le`,
`Statistics.Summarizes.le_largest_mul`).

For the clusters of clone pairs there is more to say. No location is counted twice or lost, so that
all clusters together have as many members as the pairs have locations (`sum_occurrences_group`).
And a forest of so many nodes has a tree for each one beyond the number of pairs, and a cluster for
each tree (`card_locationsOf_le`). `statistics_group` puts all of this together.
-/

set_option autoImplicit false
set_option relaxedAutoImplicit false

namespace NearClone

variable {α : Type}

/-! ### Classes of sizes -/

namespace SizeClass

/-- The numbers of members in a class. -/
def Covers : SizeClass → ℕ → Prop
  | small, n => n ≤ 3
  | medium, n => 4 ≤ n ∧ n ≤ 7
  | large, n => 8 ≤ n

instance decidableCovers : (size : SizeClass) → (n : ℕ) → Decidable (size.Covers n)
  | small, n => inferInstanceAs (Decidable (n ≤ 3))
  | medium, n => inferInstanceAs (Decidable (4 ≤ n ∧ n ≤ 7))
  | large, n => inferInstanceAs (Decidable (8 ≤ n))

/-- A number is in just one class. -/
theorem ofSize_eq_iff {n : ℕ} {size : SizeClass} : ofSize n = size ↔ size.Covers n := by
  unfold ofSize
  split_ifs <;> cases size <;> simp [Covers] <;> omega

end SizeClass

/-! ### Figures about a list -/

namespace Statistics

open Listing

/-- The figures are those of a list of clusters. -/
structure Summarizes (clusters : List (Cluster α)) (s : Statistics α) : Prop where
  clusters_eq : s.clusters = clusters.length
  occurrences_eq : s.occurrences = (clusters.map (·.occurrences)).sum
  saving_eq : s.saving = (clusters.map (·.saving)).sum
  /-- No class is listed twice. -/
  nodup_sizes : (s.sizes.map Prod.fst).Nodup
  /-- A class is listed with the number of its clusters if there are any. -/
  mem_sizes_iff : ∀ size count, (size, count) ∈ s.sizes ↔
    0 < count ∧ count = clusters.countP fun k ↦ size.Covers k.occurrences
  sum_sizes : (s.sizes.map Prod.snd).sum = clusters.length
  isLeast_smallest : IsLeast {n | ∃ k ∈ clusters, k.occurrences = n} s.smallest
  isGreatest_largest : IsGreatest {n | ∃ k ∈ clusters, k.occurrences = n} s.largest

variable {clusters : List (Cluster α)} {s : Statistics α}

namespace Summarizes

/-- The least size is at most the mean one. -/
theorem smallest_mul_le (h : s.Summarizes clusters) : s.smallest * s.clusters ≤ s.occurrences := by
  have hle : ∀ n ∈ clusters.map (·.occurrences), s.smallest ≤ n := by
    intro n hn
    exact h.isLeast_smallest.2 (List.mem_map.mp hn)
  have hsum := List.card_nsmul_le_sum _ _ hle
  rw [List.length_map, smul_eq_mul, Nat.mul_comm] at hsum
  rwa [h.clusters_eq, h.occurrences_eq]

/-- The greatest size is at least the mean one. -/
theorem le_largest_mul (h : s.Summarizes clusters) : s.occurrences ≤ s.largest * s.clusters := by
  have hle : ∀ n ∈ clusters.map (·.occurrences), n ≤ s.largest := by
    intro n hn
    exact h.isGreatest_largest.2 (List.mem_map.mp hn)
  have hsum := List.sum_le_card_nsmul _ _ hle
  rw [List.length_map, smul_eq_mul, Nat.mul_comm] at hsum
  rwa [h.clusters_eq, h.occurrences_eq]

end Summarizes

/-- The classes of some sizes, with the number of sizes in each. -/
theorem mem_classes_iff (sizes : List ℕ) {size : SizeClass} {count : ℕ} :
    (size, count) ∈ (groupsBy SizeClass.ofSize sizes).map (fun group ↦ (group.1, group.2.length)) ↔
      0 < count ∧ count = sizes.countP fun n ↦ size.Covers n := by
  have hcount : (sizes.filter fun n ↦ SizeClass.ofSize n = size).length =
      sizes.countP fun n ↦ size.Covers n := by
    rw [List.countP_eq_length_filter]
    simp only [SizeClass.ofSize_eq_iff]
  rw [List.mem_map, ← hcount]
  constructor
  · rintro ⟨⟨size, group⟩, hgroup, heq⟩
    obtain ⟨rfl, rfl⟩ := Prod.mk.inj heq
    obtain ⟨hne, hfilter⟩ := of_mem_groupsBy hgroup
    exact ⟨List.length_pos_iff.mpr hne, congrArg List.length hfilter⟩
  · rintro ⟨hpos, rfl⟩
    exact ⟨(size, _), mem_groupsBy_iff.mpr ⟨List.length_pos_iff.mp hpos, rfl⟩, rfl⟩

/-- A list of sizes with its least one, which is found on the way through the list. -/
theorem isLeast_foldl_min (first : ℕ) (rest : List ℕ) :
    IsLeast {n | n ∈ first :: rest} (rest.foldl min first) :=
  List.min?_eq_some_iff.mp List.min?_cons'

/-- A list of sizes with its greatest one, which is found on the way through the list. -/
theorem isGreatest_foldl_max (first : ℕ) (rest : List ℕ) :
    IsGreatest {n | n ∈ first :: rest} (rest.foldl max first) :=
  List.max?_eq_some_iff.mp List.max?_cons'

variable [Scalar α]

/-- Every list of clusters that is not empty has figures. -/
theorem exists_summarizes (hne : clusters ≠ []) :
    ∃ s, ofClusters? clusters = some s ∧ s.Summarizes clusters := by
  obtain ⟨k, rest, rfl⟩ := List.exists_cons_of_ne_nil hne
  have hsizes : {n | ∃ l ∈ k :: rest, l.occurrences = n} =
      {n | n ∈ k.occurrences :: rest.map (·.occurrences)} := by
    ext n
    exact List.mem_map.symm
  refine ⟨_, rfl, ?_⟩
  constructor
  case clusters_eq => rfl
  case occurrences_eq =>
    show total id ((k :: rest).map (·.occurrences)) = _
    rw [total_eq_sum_map, List.map_id]
  case saving_eq => exact List.foldr_map.symm
  case nodup_sizes =>
    rw [List.map_map]
    exact nodup_keys_groupsBy SizeClass.ofSize ((k :: rest).map (·.occurrences))
  case mem_sizes_iff =>
    intro size count
    refine (mem_classes_iff ((k :: rest).map (·.occurrences))).trans ?_
    rw [List.countP_map]
    rfl
  case sum_sizes =>
    rw [List.map_map]
    refine (sum_length_groupsBy SizeClass.ofSize ((k :: rest).map (·.occurrences))).trans ?_
    exact List.length_map _
  case isLeast_smallest =>
    rw [hsizes]
    exact isLeast_foldl_min _ _
  case isGreatest_largest =>
    rw [hsizes]
    exact isGreatest_foldl_max _ _

end Statistics

/-! ### Figures about the clusters of pairs -/

namespace Cluster

open Listing

/-- The locations of clone pairs. -/
def locationsOf (pairs : List (ClonePair α)) : Finset Location :=
  ((pairs.flatMap ClonePair.ends).map (·.location)).toFinset

variable {pairs : List (ClonePair α)} {place : Location}

theorem mem_locationsOf :
    place ∈ locationsOf pairs ↔ ∃ p ∈ pairs, ∃ e ∈ p.ends, e.location = place := by
  simp only [locationsOf, List.mem_toFinset, List.mem_map, List.mem_flatMap]
  constructor
  · rintro ⟨e, ⟨p, hp, he⟩, hplace⟩
    exact ⟨p, hp, e, he, hplace⟩
  · rintro ⟨p, hp, e, he, hplace⟩
    exact ⟨e, ⟨p, hp, he⟩, hplace⟩

/-- There is a node for every location. -/
theorem length_fragmentsOf (pairs : List (ClonePair α)) :
    (fragmentsOf pairs).length = (locationsOf pairs).card := by
  rw [locationsOf, ← length_distinct, distinct_map, List.length_map, fragmentsOf]

/-- There is a cluster for every tree. -/
theorem length_group (c : Config α) (pairs : List (ClonePair α)) :
    (group c pairs).length = (pairs.map fun p ↦ treeOf pairs p.left).toFinset.card := by
  have hgroups := groupsBy_map (fun p : ClonePair α ↦ treeOf pairs p.left) Prod.fst pairs.zipIdx
  rw [List.zipIdx_map_fst] at hgroups
  have htrees : (placedTrees c pairs).length =
      (groupsBy (fun p : ClonePair α ↦ treeOf pairs p.left) pairs).length := by
    rw [hgroups, List.length_map, ← List.length_map Prod.snd, map_snd_placedTrees, List.length_map]
  rw [group_eq_map_sortBy, List.length_map, length_sortBy, htrees, groupsBy, List.length_map,
    length_distinct]

/-- A tree has a pair. -/
theorem exists_treeOf_eq_of_isRoot {i : ℕ}
    (h : (forestOf (fragmentsOf pairs) pairs).IsRoot i) : ∃ p ∈ pairs, treeOf pairs p.left = i := by
  have hi : i < (fragmentsOf pairs).length := by
    have hsize := h.lt_size
    rwa [forestOf_eq_joinAll, Forest.size_joinAll, Forest.size_singletons] at hsize
  have hmem : (fragmentsOf pairs)[i] ∈ fragmentsOf pairs := List.getElem_mem hi
  obtain ⟨p, hp, hend⟩ := List.mem_flatMap.mp (mem_of_mem_firstPer hmem)
  have hranked : (forestOf (fragmentsOf pairs) pairs).Ranked := by
    rw [forestOf_eq_joinAll]
    exact Forest.ranked_joinAll (within_edges pairs)
  have hnode : nodeOf (fragmentsOf pairs) (fragmentsOf pairs)[i] = i :=
    nodeOf_getElem (pairwise_firstPer _ _) hi
  refine ⟨p, hp, ?_⟩
  rw [← treeOf_of_mem_ends hp hend, treeOf, hnode]
  exact hranked.root_eq_self h.parentOf_eq

/-- There is a cluster for every location beyond the number of pairs. -/
theorem card_locationsOf_le (c : Config α) (pairs : List (ClonePair α)) :
    (locationsOf pairs).card ≤ pairs.length + (group c pairs).length := by
  have hroots : (forestOf (fragmentsOf pairs) pairs).roots ⊆
      (pairs.map fun p ↦ treeOf pairs p.left).toFinset := by
    intro i hi
    obtain ⟨p, hp, htree⟩ := exists_treeOf_eq_of_isRoot (Forest.mem_roots.mp hi)
    exact List.mem_toFinset.mpr (List.mem_map.mpr ⟨p, hp, htree⟩)
  have htrees := Finset.card_le_card hroots
  have hnodes := Forest.le_card_roots_joinAll_add (within_edges pairs)
  rw [← forestOf_eq_joinAll, List.length_map, length_fragmentsOf] at hnodes
  rw [length_group]
  omega

/-- No location is in two clusters. -/
theorem nodup_flatMap_places (c : Config α) (pairs : List (ClonePair α)) :
    ((group c pairs).flatMap places).Nodup := by
  refine List.nodup_flatMap.mpr ⟨fun k _ ↦ k.nodup_places, ?_⟩
  refine (List.pairwise_map.mp (pairwise_apart_group c pairs)).imp ?_
  intro a b hapart place ha hb
  obtain ⟨p, hp, e, he, hplace⟩ := mem_places.mp ha
  obtain ⟨q, hq, e', he', hplace'⟩ := mem_places.mp hb
  exact hapart p hp q hq ⟨e, he, e', he', hplace.trans hplace'.symm⟩

/-- The clusters have the locations of the pairs. -/
theorem toFinset_flatMap_places (c : Config α) (pairs : List (ClonePair α)) :
    ((group c pairs).flatMap places).toFinset = locationsOf pairs := by
  ext place
  rw [List.mem_toFinset, List.mem_flatMap, mem_locationsOf]
  constructor
  · rintro ⟨k, hk, hplace⟩
    obtain ⟨p, hp, e, he, heq⟩ := mem_places.mp hplace
    exact ⟨p, mem_of_mem_group hk hp, e, he, heq⟩
  · rintro ⟨p, hp, e, he, heq⟩
    obtain ⟨k, hk, hpk⟩ := exists_mem_group c hp
    exact ⟨k, hk, mem_places.mpr ⟨p, hpk, e, he, heq⟩⟩

/-- All clusters together have as many members as there are locations. -/
theorem sum_occurrences_group (c : Config α) (pairs : List (ClonePair α)) :
    ((group c pairs).map (·.occurrences)).sum = (locationsOf pairs).card := by
  rw [← toFinset_flatMap_places c, List.toFinset_card_of_nodup (nodup_flatMap_places c pairs),
    List.length_flatMap]
  simp only [places, List.length_map, occurrences]

/-- The figures about the clusters of some pairs: their sizes sum to the number of locations, which
is at most that of the pairs and of the clusters together, and the mean size is between the least
and the greatest one. -/
theorem statistics_group [Scalar α] (c : Config α) (hne : pairs ≠ []) :
    ∃ s, Statistics.ofClusters? (group c pairs) = some s ∧ s.Summarizes (group c pairs) ∧
      s.occurrences = (locationsOf pairs).card ∧
      s.occurrences ≤ pairs.length + s.clusters ∧
      s.smallest * s.clusters ≤ s.occurrences ∧ s.occurrences ≤ s.largest * s.clusters := by
  have hclusters : group c pairs ≠ [] := by
    obtain ⟨p, hp⟩ := List.exists_mem_of_ne_nil pairs hne
    obtain ⟨k, hk, -⟩ := exists_mem_group c hp
    exact List.ne_nil_of_mem hk
  obtain ⟨s, hs, hsummarizes⟩ := Statistics.exists_summarizes hclusters
  have htotal : s.occurrences = (locationsOf pairs).card :=
    hsummarizes.occurrences_eq.trans (sum_occurrences_group c pairs)
  refine ⟨s, hs, hsummarizes, htotal, ?_, hsummarizes.smallest_mul_le, hsummarizes.le_largest_mul⟩
  rw [htotal, hsummarizes.clusters_eq]
  exact card_locationsOf_le c pairs

/-- A triangle of three pairs and a pair apart: there are as many locations as pairs and one more,
for the triangle has a pair that joins nothing new. -/
theorem statistics_group_triangle :
    let fragment : Int → Fragment := fun line ↦ ⟨[], ⟨"main", ⟨line, line, 1, 1⟩⟩, none, none, []⟩
    let pair : Int → Int → ClonePair ℚ := fun a b ↦ ⟨fragment a, fragment b, Similarity.empty⟩
    let pairs := [pair 10 20, pair 50 60, pair 20 30, pair 30 10]
    pairs ≠ [] ∧ ∃ s, Statistics.ofClusters? (group Config.default pairs) = some s ∧
      s.Summarizes (group Config.default pairs) ∧ s.occurrences = 5 ∧ s.clusters = 2 ∧
        s.occurrences ≤ pairs.length + s.clusters ∧
          s.smallest * s.clusters ≤ s.occurrences ∧ s.occurrences ≤ s.largest * s.clusters := by
  intro fragment pair pairs
  have hne : pairs ≠ [] := List.cons_ne_nil _ _
  obtain ⟨s, hs, hsummarizes, htotal, hbound⟩ := statistics_group Config.default hne
  have hlocations : (locationsOf pairs).card = 5 := by decide +kernel
  have htrees : (pairs.map fun p ↦ treeOf pairs p.left).toFinset.card = 2 := by decide +kernel
  refine ⟨hne, s, hs, hsummarizes, htotal.trans hlocations, ?_, hbound⟩
  rw [hsummarizes.clusters_eq, length_group, htrees]

end Cluster

end NearClone
