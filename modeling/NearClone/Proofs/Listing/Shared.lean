import Mathlib.Algebra.BigOperators.Group.Finset.Basic
import Mathlib.Algebra.GroupWithZero.Nat
import Mathlib.Algebra.Order.BigOperators.Group.Finset
import Mathlib.Data.Multiset.UnionInter
import NearClone.Listing.Shared

/-!
# Shared elements as a multiset intersection

`sharedCount_eq_card_inter` reads the number of shared elements of two lists as the size of their
intersection as multisets. From it follow the laws that an induction over two lists needs: a common
head is one more shared element (`sharedCount_cons_cons`), and a longer list shares no less
(`sharedCount_le_cons_left`, `sharedCount_le_cons_right`).
-/

set_option autoImplicit false
set_option relaxedAutoImplicit false

namespace NearClone.Listing

variable {κ : Type} [DecidableEq κ]

/-- The sum of a count over a list is the sum of the list of counts. -/
theorem total_eq_sum_map {β : Type} (count : β → ℕ) (xs : List β) :
    total count xs = (xs.map count).sum := by
  induction xs with
  | nil => rfl
  | cons x xs ih => rw [total_cons, ih, List.map_cons, List.sum_cons]

/-- The distinct elements of a list are its elements. -/
@[simp]
theorem mem_distinct {xs : List κ} {x : κ} : x ∈ distinct xs ↔ x ∈ xs := by
  constructor
  · exact mem_of_mem_firstPer
  · intro hx
    obtain ⟨y, hy, hkey⟩ := exists_mem_firstPer id hx
    have hyx : y = x := hkey
    exact hyx ▸ hy

/-- There are as many distinct elements as the set of elements has. -/
theorem length_distinct (xs : List κ) : (distinct xs).length = xs.toFinset.card := by
  have hnodup : (distinct xs).Nodup := pairwise_distinct xs
  rw [← List.toFinset_card_of_nodup hnodup]
  congr 1
  ext x
  rw [List.mem_toFinset, List.mem_toFinset, mem_distinct]

/-- Just one element is left exactly if all are the same. -/
theorem length_distinct_eq_one_iff {xs : List κ} (hne : xs ≠ []) :
    (distinct xs).length = 1 ↔ ∀ x ∈ xs, ∀ y ∈ xs, x = y := by
  have hpos : 0 < xs.toFinset.card :=
    Finset.card_pos.mpr ((List.toFinset_nonempty_iff xs).mpr hne)
  have hone : xs.toFinset.card ≤ 1 ↔ ∀ x ∈ xs, ∀ y ∈ xs, x = y := by
    simp only [Finset.card_le_one, List.mem_toFinset]
  rw [length_distinct, ← hone]
  omega

/-- A list with some of the elements has as many distinct ones exactly if it has all. -/
theorem length_distinct_eq_iff {xs ys : List κ} (h : ys ⊆ xs) :
    (distinct ys).length = (distinct xs).length ↔ xs ⊆ ys := by
  have hsets : ys.toFinset ⊆ xs.toFinset := by
    intro y hy
    exact List.mem_toFinset.mpr (h (List.mem_toFinset.mp hy))
  rw [length_distinct, length_distinct]
  constructor
  · intro hcard x hx
    have hequal := Finset.eq_of_subset_of_card_le hsets hcard.ge
    rw [← List.mem_toFinset, hequal, List.mem_toFinset]
    exact hx
  · intro hback
    congr 1
    ext x
    rw [List.mem_toFinset, List.mem_toFinset]
    exact ⟨fun hx ↦ h hx, fun hx ↦ hback hx⟩

/-- Summing over the distinct elements of a list is summing over its set of elements. -/
theorem total_distinct (count : κ → ℕ) (xs : List κ) :
    total count (distinct xs) = ∑ k ∈ xs.toFinset, count k := by
  have hset : (distinct xs).toFinset = xs.toFinset := by
    ext k
    simp
  rw [total_eq_sum_map, ← List.sum_toFinset count (pairwise_distinct xs), hset]

/-- The number of shared elements is the size of the intersection as multisets. -/
theorem sharedCount_eq_card_inter (xs ys : List κ) :
    sharedCount xs ys = Multiset.card ((xs : Multiset κ) ∩ (ys : Multiset κ)) := by
  have hsubset : ((xs : Multiset κ) ∩ (ys : Multiset κ)).toFinset ⊆ xs.toFinset := by
    intro k hk
    have hmem := Multiset.mem_of_le Multiset.inter_le_left (Multiset.mem_toFinset.mp hk)
    exact List.mem_toFinset.mpr (Multiset.mem_coe.mp hmem)
  have hcount (k : κ) : min (xs.count k) (ys.count k) =
      Multiset.count k ((xs : Multiset κ) ∩ (ys : Multiset κ)) := by
    rw [Multiset.count_inter, Multiset.coe_count, Multiset.coe_count]
  rw [sharedCount, total_distinct, ← Multiset.toFinset_sum_count_eq]
  simp only [hcount]
  refine (Finset.sum_subset hsubset fun k _ hk ↦ ?_).symm
  exact Multiset.count_eq_zero.mpr fun hmem ↦ hk (Multiset.mem_toFinset.mpr hmem)

/-- Sharing does not depend on the order of the two lists. -/
theorem sharedCount_comm (xs ys : List κ) : sharedCount xs ys = sharedCount ys xs := by
  rw [sharedCount_eq_card_inter, sharedCount_eq_card_inter, Multiset.inter_comm]

/-- Sharing does not depend on the order within the first list. -/
@[simp]
theorem sharedCount_reverse_left (xs ys : List κ) :
    sharedCount xs.reverse ys = sharedCount xs ys := by
  rw [sharedCount_eq_card_inter, sharedCount_eq_card_inter, Multiset.coe_reverse]

/-- Sharing does not depend on the order within the second list. -/
@[simp]
theorem sharedCount_reverse_right (xs ys : List κ) :
    sharedCount xs ys.reverse = sharedCount xs ys := by
  rw [sharedCount_comm, sharedCount_reverse_left, sharedCount_comm]

/-- A list that is part of two others is no longer than what they share. -/
theorem length_le_sharedCount_of_sublist {xs ys zs : List κ} (hxs : zs.Sublist xs)
    (hys : zs.Sublist ys) : zs.length ≤ sharedCount xs ys := by
  rw [sharedCount_eq_card_inter, ← Multiset.coe_card]
  exact Multiset.card_le_card
    (Multiset.le_inter (Multiset.coe_le.mpr hxs.subperm) (Multiset.coe_le.mpr hys.subperm))

/-- A common head is one more shared element. -/
theorem sharedCount_cons_cons (x : κ) (xs ys : List κ) :
    sharedCount (x :: xs) (x :: ys) = sharedCount xs ys + 1 := by
  rw [sharedCount_eq_card_inter, sharedCount_eq_card_inter, ← Multiset.cons_coe,
    ← Multiset.cons_coe, Multiset.cons_inter_of_pos _ (Multiset.mem_cons_self x _),
    Multiset.erase_cons_head, Multiset.card_cons]

/-- A longer first list shares no less. -/
theorem sharedCount_le_cons_left (x : κ) (xs ys : List κ) :
    sharedCount xs ys ≤ sharedCount (x :: xs) ys := by
  rw [sharedCount_eq_card_inter, sharedCount_eq_card_inter, ← Multiset.cons_coe]
  exact Multiset.card_le_card
    (Multiset.le_inter (Multiset.inter_le_left.trans (Multiset.le_cons_self _ x))
      Multiset.inter_le_right)

/-- A longer second list shares no less. -/
theorem sharedCount_le_cons_right (y : κ) (xs ys : List κ) :
    sharedCount xs ys ≤ sharedCount xs (y :: ys) := by
  rw [sharedCount_comm xs, sharedCount_comm xs]
  exact sharedCount_le_cons_left y ys xs

end NearClone.Listing
