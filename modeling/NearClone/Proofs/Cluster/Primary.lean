import NearClone.Proofs.Cluster.Components
import NearClone.Proofs.Listing.Least

/-!
# Clusters and their pairs

A cluster can be read off its pairs alone: its nodes are the fragments of its pairs
(`nodesIn_eq_fragmentsOf`), and with them come its primary member and what it saves
(`ofTree?_of_mem_group`). No end of a pair starts before the primary member (`isLE_of_mem_ends`),
which is the first end that starts where it does (`findSome?_firstAt`).
-/

set_option autoImplicit false
set_option relaxedAutoImplicit false

namespace NearClone

/-- Where a test of the items of every list agrees on all of them, it selects whole lists. -/
theorem Listing.filter_flatMap_of_forall {β γ : Type} {items : β → List γ} {p : γ → Bool}
    {q : β → Bool} {xs : List β} (h : ∀ x ∈ xs, ∀ y ∈ items x, p y = q x) :
    (xs.flatMap items).filter p = (xs.filter q).flatMap items := by
  induction xs with
  | nil => rfl
  | cons x rest ih =>
    obtain ⟨hx, hrest⟩ := List.forall_mem_cons.mp h
    rw [List.flatMap_cons, List.filter_append, ih hrest]
    cases hq : q x with
    | true =>
      rw [List.filter_cons_of_pos hq, List.flatMap_cons,
        List.filter_eq_self.mpr fun y hy ↦ (hx y hy).trans hq]
    | false =>
      have hnone : (items x).filter p = [] :=
        List.filter_eq_nil_iff.mpr fun y hy ↦ Bool.eq_false_iff.mp ((hx y hy).trans hq)
      rw [List.filter_cons_of_neg (Bool.eq_false_iff.mp hq), hnone, List.nil_append]

variable {α : Type}

/-- The first end of a pair that starts where a fragment starts. -/
def ClonePair.firstAt (p : ClonePair α) (f : Fragment) : Option Fragment :=
  p.ends.find? fun e ↦ e.compareStart f = .eq

/-- Where it starts is all that counts of the fragment. -/
theorem ClonePair.firstAt_congr {f g : Fragment} (h : f.compareStart g = .eq) (p : ClonePair α) :
    p.firstAt f = p.firstAt g := by
  simp only [firstAt, fun e : Fragment ↦ Std.TransCmp.congr_right (a := e) h]

namespace Cluster

open Listing

variable {c : Config α} {k : Cluster α} {pairs : List (ClonePair α)} {p : ClonePair α}
  {e : Fragment} {nodes : List Fragment}

/-- The nodes of a tree are the fragments of its pairs. -/
theorem nodesIn_eq_fragmentsOf (pairs : List (ClonePair α)) (tree : ℕ) :
    nodesIn pairs tree = fragmentsOf (pairsIn pairs tree) := by
  have hlocation {f g : Fragment} (h : f.location = g.location) :
      decide (treeOf pairs f = tree) = decide (treeOf pairs g = tree) := by
    rw [treeOf_congr pairs h]
  have hends : ∀ p ∈ pairs, ∀ e ∈ p.ends,
      decide (treeOf pairs e = tree) = decide (treeOf pairs p.left = tree) := by
    intro p hp e he
    rw [treeOf_of_mem_ends hp he]
  rw [nodesIn, fragmentsOf, filter_firstPer hlocation, filter_flatMap_of_forall hends]
  rfl

/-- What the cluster of a tree is made of. -/
theorem of_ofTree? (h : ofTree? c nodes pairs = some k) :
    least? Fragment.compareStart nodes = some k.primary ∧ k.pairs = pairs ∧
      k.saving = c.saving nodes.length k.primary.length ∧ k.recommendation = none := by
  rw [ofTree?, Option.map_eq_some_iff] at h
  obtain ⟨primary, hprimary, rfl⟩ := h
  exact ⟨hprimary, rfl, rfl, rfl⟩

/-- A cluster is made of its own pairs and their fragments. -/
theorem ofTree?_of_mem_group (hk : k ∈ group c pairs) :
    ofTree? c (fragmentsOf k.pairs) k.pairs = some k := by
  obtain ⟨⟨tree, members⟩, hgroup, hfound⟩ := List.mem_filterMap.mp (mem_sortBy.mp hk)
  have hmembers : members = pairsIn pairs tree := (of_mem_groupsBy hgroup).2
  have hpairs : k.pairs = pairsIn pairs tree := (of_ofTree? hfound).2.1.trans hmembers
  rw [hpairs, ← nodesIn_eq_fragmentsOf, ← hmembers]
  exact hfound

/-- What a cluster saves follows from the number of its members and the length of the primary
one. -/
theorem saving_eq (hk : k ∈ group c pairs) :
    k.saving = c.saving k.occurrences k.primary.length := by
  rw [occurrences, members, length_sortBy]
  exact (of_ofTree? (ofTree?_of_mem_group hk)).2.2.1

/-- No end of a pair starts before the primary member. -/
theorem isLE_of_mem_ends (hk : k ∈ group c pairs) (hp : p ∈ k.pairs) (he : e ∈ p.ends) :
    (k.primary.compareStart e).isLE = true := by
  have hmem : e ∈ k.pairs.flatMap ClonePair.ends := List.mem_flatMap.mpr ⟨p, hp, he⟩
  obtain ⟨f, hf, hlocation⟩ := exists_mem_firstPer (fun f : Fragment ↦ f.location) hmem
  have hle := (least?_spec (of_ofTree? (ofTree?_of_mem_group hk)).1).1 f hf
  rwa [Fragment.compareStart, hlocation] at hle

/-- The primary member is the first end that starts where it does. -/
theorem findSome?_firstAt (hk : k ∈ group c pairs) :
    k.pairs.findSome? (·.firstAt k.primary) = some k.primary := by
  have hfirst := (least?_spec (of_ofTree? (ofTree?_of_mem_group hk)).1).2
  rw [fragmentsOf, find?_firstPer, List.find?_flatMap] at hfirst
  · exact hfirst
  · intro f g hlocation
    rw [Fragment.compareStart, hlocation, Fragment.compareStart]

end Cluster

end NearClone
