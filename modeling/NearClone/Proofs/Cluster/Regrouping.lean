import NearClone.Proofs.Cluster.Primary

/-!
# Clusters by themselves

A chain of pairs leads through pairs of its own tree alone (`Chained.within`), so that the pairs of
a tree hang together also without all others (`treeOf_pairsIn_eq`). Pairs that make one tree make
one cluster (`group_of_one_tree`). Clusters therefore have no bearing on each other: to group the
pairs of a cluster anew gives back this cluster, with its primary member, its pairs in their order
and what it saves (`group_pairs_eq_singleton`).
-/

set_option autoImplicit false
set_option relaxedAutoImplicit false

namespace NearClone.Cluster

open Listing

variable {α : Type} {c : Config α} {k : Cluster α} {pairs : List (ClonePair α)}
  {p q : ClonePair α} {tree : ℕ}

/-- A chain leads through pairs of its tree alone. -/
theorem Chained.within (h : Chained pairs p q) (hp : p ∈ pairsIn pairs tree) :
    Chained (pairsIn pairs tree) p q := by
  induction h with
  | refl => exact .refl
  | @tail r s hchain hstep ih =>
    have hr : r ∈ pairsIn pairs tree := mem_pairsIn_of_chained hp hstep.1 hchain
    have hs : s ∈ pairsIn pairs tree :=
      mem_pairsIn_of_chained hp hstep.2.1 (hchain.tail hstep)
    exact ih.tail ⟨hr, hs, hstep.2.2⟩

/-- The pairs of a tree are in one tree also without all others. -/
theorem treeOf_pairsIn_eq (hp : p ∈ pairsIn pairs tree) (hq : q ∈ pairsIn pairs tree) :
    treeOf (pairsIn pairs tree) p.left = treeOf (pairsIn pairs tree) q.left := by
  rw [treeOf_eq_iff_chained hp hq]
  exact (chained_of_mem_pairsIn hp hq).within hp

/-- Pairs of one tree make one cluster. -/
theorem group_of_one_tree (hk : ofTree? c (fragmentsOf pairs) pairs = some k)
    (htree : ∀ p ∈ pairs, treeOf pairs p.left = tree) : group c pairs = [k] := by
  have hne : pairs ≠ [] := by
    rintro rfl
    exact nomatch hk
  have hall : pairsIn pairs tree = pairs :=
    List.filter_eq_self.mpr fun p hp ↦ decide_eq_true (htree p hp)
  have hfound : ofTree? c (nodesIn pairs tree) pairs = some k := by
    rw [nodesIn_eq_fragmentsOf, hall]
    exact hk
  show sortBy compareRank ((groupsBy (fun p : ClonePair α ↦ treeOf pairs p.left) pairs).filterMap
    fun group ↦ ofTree? c (nodesIn pairs group.1) group.2) = [k]
  rw [groupsBy_of_forall_eq hne htree]
  simp only [List.filterMap_cons, List.filterMap_nil, hfound]
  exact sortBy_of_pairwise (List.pairwise_singleton _ _)

/-- To group the pairs of a cluster gives back this cluster alone. -/
theorem group_pairs_eq_singleton (hk : k ∈ group c pairs) : group c k.pairs = [k] := by
  obtain ⟨tree, hpairs, hne⟩ := exists_tree_of_mem_group hk
  obtain ⟨p, hp⟩ := List.exists_mem_of_ne_nil k.pairs hne
  have htree : ∀ q ∈ k.pairs, treeOf k.pairs q.left = treeOf k.pairs p.left := by
    intro q hq
    rw [hpairs] at hp hq ⊢
    exact treeOf_pairsIn_eq hq hp
  exact group_of_one_tree (ofTree?_of_mem_group hk) htree

/-- Among other pairs there are three of a cluster of which the first two share no location. They
make the same cluster without the others, whose numbers come before theirs. -/
theorem group_pairs_eq_singleton_three :
    let fragment : Int → Fragment := fun line ↦
      { statements := List.replicate 5 { shape := "call", kind := "expression" }
        location := ⟨"main", ⟨line, line + 5, 1, 1⟩⟩ }
    let pair : Int → Int → ClonePair ℚ := fun a b ↦
      ⟨fragment a, fragment b, Similarity.empty⟩
    let pairs := [pair 60 70, pair 30 10, pair 80 60, pair 40 20, pair 20 30]
    let k : Cluster ℚ :=
      ⟨fragment 10, [pair 30 10, pair 40 20, pair 20 30], 11, none⟩
    k ∈ group Config.default pairs ∧ group Config.default k.pairs = [k] := by
  intro fragment pair pairs k
  have hk : k ∈ group Config.default pairs := mem_group_iff.mpr (by decide +kernel)
  exact ⟨hk, group_pairs_eq_singleton hk⟩

end NearClone.Cluster
