import NearClone.Proofs.Cluster.Advice
import NearClone.Proofs.Cluster.Components

/-!
# Clusters within clusters

Different clusters share no location (`pairwise_apart_group`), and advice does not change that
(`map_pairs_annotate`). A chain of pairs is still there among more pairs (`Chained.mono`), so that
each cluster of some pairs lies within one of more pairs (`exists_group_of_subset`), and within one
alone (`existsUnique_of_subset`).
-/

set_option autoImplicit false
set_option relaxedAutoImplicit false

namespace NearClone

/-- If no two elements have a property, the one that has it stands at just one place. -/
theorem Listing.existsUnique_getElem? {β : Type} {P : β → Prop} {xs : List β} {x : β}
    (h : xs.Pairwise fun a b ↦ ¬ (P a ∧ P b)) (hx : x ∈ xs) (hP : P x) :
    ∃! i : ℕ, ∃ y ∈ xs[i]?, P y := by
  obtain ⟨i, hi⟩ := List.mem_iff_getElem?.mp hx
  refine ⟨i, ⟨x, hi, hP⟩, ?_⟩
  rintro j ⟨y, hj, hPy⟩
  obtain ⟨hilt, rfl⟩ := List.getElem?_eq_some_iff.mp hi
  obtain ⟨hjlt, rfl⟩ := List.getElem?_eq_some_iff.mp (Option.mem_def.mp hj)
  rw [List.pairwise_iff_getElem] at h
  rcases Nat.lt_trichotomy i j with hlt | heq | hlt
  · exact absurd ⟨hP, hPy⟩ (h i j hilt hjlt hlt)
  · exact heq.symm
  · exact absurd ⟨hPy, hP⟩ (h j i hjlt hilt hlt)

variable {α : Type}

/-- A pair shares its locations with itself. -/
theorem ClonePair.Meets.refl (p : ClonePair α) : p.Meets p :=
  ⟨p.left, p.left_mem_ends, p.left, p.left_mem_ends, rfl⟩

namespace Cluster

open Listing

/-- The locations of the members. -/
def places (k : Cluster α) : List Location := k.members.map (·.location)

/-- No pair of the one list shares a location with one of the other. -/
def Apart (ps qs : List (ClonePair α)) : Prop := ∀ p ∈ ps, ∀ q ∈ qs, ¬ p.Meets q

variable {c c' : Config α} {k : Cluster α} {pairs pairs' : List (ClonePair α)}
  {p q : ClonePair α} {place : Location}

/-- The locations of the members are those of the ends of the pairs. -/
theorem mem_places : place ∈ k.places ↔ ∃ p ∈ k.pairs, ∃ e ∈ p.ends, e.location = place := by
  rw [places, List.mem_map]
  constructor
  · rintro ⟨f, hf, rfl⟩
    obtain ⟨p, hp, hend⟩ := exists_pair_of_mem_members hf
    exact ⟨p, hp, f, hend, rfl⟩
  · rintro ⟨p, hp, e, he, rfl⟩
    have hmem : e ∈ k.pairs.flatMap ClonePair.ends := List.mem_flatMap.mpr ⟨p, hp, he⟩
    obtain ⟨f, hf, hlocation⟩ := exists_mem_firstPer (fun f : Fragment ↦ f.location) hmem
    exact ⟨f, mem_sortBy.mpr hf, hlocation⟩

/-- No two members are at one location. -/
theorem nodup_places (k : Cluster α) : k.places.Nodup := by
  refine ((sortBy_perm _ _).map _).nodup_iff.mpr ?_
  exact List.pairwise_map.mpr (pairwise_firstPer _ _)

/-- The members of a cluster with just one pair, between two locations, are the two fragments. -/
theorem mem_members_of_forall_eq (hp : p ∈ k.pairs) (honly : ∀ q ∈ k.pairs, q = p)
    (hne : p.left.location ≠ p.right.location) {f : Fragment} : f ∈ k.members ↔ f ∈ p.ends := by
  have hends {e : Fragment} (he : e ∈ k.members) : e ∈ p.ends := by
    obtain ⟨q, hq, hend⟩ := exists_pair_of_mem_members he
    rwa [honly q hq] at hend
  refine ⟨hends, fun hf ↦ ?_⟩
  obtain ⟨e, he, hlocation⟩ := List.mem_map.mp (mem_places.mpr ⟨p, hp, f, hf, rfl⟩)
  rcases List.mem_pair.mp hf with rfl | rfl <;> rcases List.mem_pair.mp (hends he) with rfl | rfl
  · exact he
  · exact absurd hlocation.symm hne
  · exact absurd hlocation hne
  · exact he

/-- A cluster with a pair has a member. -/
theorem members_ne_nil (h : k.pairs ≠ []) : k.members ≠ [] := by
  obtain ⟨p, hp⟩ := List.exists_mem_of_ne_nil k.pairs h
  have hplace := mem_places.mpr ⟨p, hp, p.left, p.left_mem_ends, rfl⟩
  intro hnil
  rw [places, hnil] at hplace
  exact List.not_mem_nil hplace

/-- A cluster with a pair between two locations has two members. -/
theorem two_le_length_members (hp : p ∈ k.pairs) (hne : p.left.location ≠ p.right.location) :
    2 ≤ k.members.length := by
  have hsubset : [p.left.location, p.right.location] ⊆ k.places := by
    intro place hplace
    rcases List.mem_pair.mp hplace with rfl | rfl
    · exact mem_places.mpr ⟨p, hp, p.left, p.left_mem_ends, rfl⟩
    · exact mem_places.mpr ⟨p, hp, p.right, p.right_mem_ends, rfl⟩
  have hnodup : [p.left.location, p.right.location].Nodup := by
    rwa [List.nodup_cons, List.mem_singleton, and_iff_left (List.nodup_singleton _)]
  have hlength := (List.subperm_of_subset hnodup hsubset).length_le
  rwa [places, List.length_map] at hlength

/-- More pairs have more locations. -/
theorem places_subset_of_pairs_subset {k' : Cluster α} (h : k.pairs ⊆ k'.pairs) :
    k.places ⊆ k'.places := by
  intro place hplace
  obtain ⟨p, hp, hend⟩ := mem_places.mp hplace
  exact mem_places.mpr ⟨p, h hp, hend⟩

/-- Different clusters are apart. -/
theorem pairwise_apart_group (c : Config α) (pairs : List (ClonePair α)) :
    ((group c pairs).map (·.pairs)).Pairwise Apart := by
  have hsymm {a b : Cluster α × List ℕ} (h : Apart a.1.pairs b.1.pairs) :
      Apart b.1.pairs a.1.pairs := fun q hq p hp hmeets ↦ h p hp q hq hmeets.symm
  rw [group_eq_map_sortBy, List.map_map, List.pairwise_map]
  refine ((sortBy_perm _ _).pairwise_iff hsymm).mpr ?_
  refine (pairwise_members_placedTrees c pairs).imp ?_
  rintro a b hmembers p hp q hq ⟨e, he, e', he', hlocation⟩
  obtain ⟨f, hf, hfplace⟩ := List.mem_map.mp (mem_places.mpr ⟨p, hp, e, he, rfl⟩)
  obtain ⟨g, hg, hgplace⟩ := List.mem_map.mp (mem_places.mpr ⟨q, hq, e', he', rfl⟩)
  exact hmembers f hf g hg (hfplace.trans (hlocation.trans hgplace.symm))

/-- Advice leaves the pairs of clusters as they are. -/
theorem map_pairs_annotate [Scalar α] (config : Config α) (clusters : List (Cluster α)) :
    (annotate config clusters).map (·.pairs) = clusters.map (·.pairs) := by
  have hclusters : clusters.zipIdx.map Prod.fst = clusters := List.zipIdx_map_fst 0 clusters
  rw [annotate, List.map_map]
  conv_rhs => rw [← hclusters, List.map_map]
  rfl

/-- Different clusters are apart also with advice. -/
theorem pairwise_apart_annotate [Scalar α] (c : Config α) (pairs : List (ClonePair α)) :
    ((annotate c (group c pairs)).map (·.pairs)).Pairwise Apart := by
  rw [map_pairs_annotate]
  exact pairwise_apart_group c pairs

/-! ### More pairs -/

/-- A chain of pairs is still there among more pairs. -/
theorem Chained.mono (h : pairs' ⊆ pairs) (hchain : Chained pairs' p q) : Chained pairs p q :=
  Relation.ReflTransGen.mono (fun _ _ hstep ↦ ⟨h hstep.1, h hstep.2.1, hstep.2.2⟩) _ _ hchain

/-- The pairs of a cluster are in one cluster of more pairs. -/
theorem exists_group_of_subset (c : Config α) (h : pairs' ⊆ pairs) (hk : k ∈ group c' pairs') :
    ∃ wide ∈ group c pairs, k.pairs ⊆ wide.pairs := by
  obtain ⟨tree, hpairs, hne⟩ := exists_tree_of_mem_group hk
  obtain ⟨p, hp⟩ := List.exists_mem_of_ne_nil k.pairs hne
  obtain ⟨wide, hwide, hpwide⟩ := exists_mem_group c (h (mem_of_mem_group hk hp))
  obtain ⟨wideTree, hwidePairs, -⟩ := exists_tree_of_mem_group hwide
  refine ⟨wide, hwide, fun q hq ↦ ?_⟩
  rw [hwidePairs] at hpwide ⊢
  rw [hpairs] at hp hq
  -- A chain leads from the one pair to the other, among the given pairs and so among all.
  have hchain : Chained pairs' p q := chained_of_mem_pairsIn hp hq
  exact mem_pairsIn_of_chained hpwide (h (mem_pairsIn.mp hq).1) (hchain.mono h)

/-- A cluster lies within just one of clusters that are apart, if it lies within one at all. -/
theorem existsUnique_of_subset {clusters : List (Cluster α)}
    (h : (clusters.map (·.pairs)).Pairwise Apart) (hne : k.pairs ≠ []) {wide : Cluster α}
    (hwide : wide ∈ clusters) (hsubset : k.places ⊆ wide.places) :
    ∃! i : ℕ, ∃ wide ∈ clusters[i]?, k.places ⊆ wide.places := by
  refine existsUnique_getElem? ((List.pairwise_map.mp h).imp ?_) hwide hsubset
  rintro a b hapart ⟨ha, hb⟩
  obtain ⟨p, hp⟩ := List.exists_mem_of_ne_nil k.pairs hne
  have hplace : p.left.location ∈ k.places := mem_places.mpr ⟨p, hp, p.left, p.left_mem_ends, rfl⟩
  obtain ⟨q, hq, e, he, hlocation⟩ := mem_places.mp (ha hplace)
  obtain ⟨r, hr, e', he', hlocation'⟩ := mem_places.mp (hb hplace)
  exact hapart q hq r hr ⟨e, he, e', he', hlocation.trans hlocation'.symm⟩

end Cluster

end NearClone
