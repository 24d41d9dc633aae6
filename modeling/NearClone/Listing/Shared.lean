import NearClone.Listing.Distinct
import NearClone.Listing.Total

/-!
How many elements two lists share, each occurrence counted once: for every value the number of times
that it occurs in both.
-/

set_option autoImplicit false
set_option relaxedAutoImplicit false

namespace NearClone.Listing

variable {κ : Type} [DecidableEq κ]

/-- The size of the intersection of two lists as multisets. -/
def sharedCount (xs ys : List κ) : Nat :=
  total (fun k ↦ min (xs.count k) (ys.count k)) (distinct xs)

@[simp]
theorem sharedCount_nil (ys : List κ) : sharedCount [] ys = 0 := rfl

/-- A value is counted at most once among different ones. -/
theorem total_ite_le_one (y : κ) {ks : List κ} (h : ks.Pairwise (· ≠ ·)) :
    total (fun k ↦ if y == k then 1 else 0) ks ≤ 1 := by
  induction ks with
  | nil => simp
  | cons k ks ih =>
    have hks := ih (List.pairwise_cons.1 h).2
    by_cases hk : y = k
    · have hrest : ∀ ls : List κ, (∀ l ∈ ls, k ≠ l) →
          total (fun l ↦ if y == l then 1 else 0) ls = 0 := by
        intro ls hls
        induction ls with
        | nil => rfl
        | cons l ls ihl =>
          have hl : (y == l) = false := by simpa [hk] using hls l List.mem_cons_self
          rw [total_cons, hl, ihl fun m hm ↦ hls m (List.mem_cons_of_mem _ hm)]
          rfl
      have hzero := hrest ks (List.pairwise_cons.1 h).1
      rw [total_cons, hzero]
      split <;> omega
    · have hne : (y == k) = false := by simpa using hk
      rw [total_cons, hne]
      simpa using hks

/-- The occurrences of different values add up to no more than the whole list. -/
theorem total_count_le_length (ys : List κ) {ks : List κ} (h : ks.Pairwise (· ≠ ·)) :
    total (fun k ↦ ys.count k) ks ≤ ys.length := by
  induction ys with
  | nil =>
    have hzero : total (fun k ↦ ([] : List κ).count k) ks ≤ total (fun _ ↦ 0) ks :=
      total_le_total (fun k ↦ Nat.le_of_eq List.count_nil) ks
    have hnone : ∀ ls : List κ, total (fun _ ↦ 0) ls = 0 := by
      intro ls
      induction ls with
      | nil => rfl
      | cons l ls ih => rw [total_cons, ih]
    rw [hnone ks] at hzero
    exact hzero
  | cons y ys ih =>
    have hcount : total (fun k ↦ (y :: ys).count k) ks =
        total (fun k ↦ ys.count k) ks + total (fun k ↦ if y == k then 1 else 0) ks := by
      rw [← total_add]
      congr 1
      funext k
      exact List.count_cons
    have hone := total_ite_le_one y h
    rw [hcount, List.length_cons]
    omega

/-- Distinct elements are different. -/
theorem pairwise_distinct (xs : List κ) : (distinct xs).Pairwise (· ≠ ·) :=
  pairwise_firstPer id xs

/-- No more elements are shared than the first list has. -/
theorem sharedCount_le_left (xs ys : List κ) : sharedCount xs ys ≤ xs.length :=
  Nat.le_trans (total_le_total (fun _ ↦ Nat.min_le_left _ _) _)
    (total_count_le_length xs (pairwise_distinct xs))

/-- No more elements are shared than the second list has. -/
theorem sharedCount_le_right (xs ys : List κ) : sharedCount xs ys ≤ ys.length :=
  Nat.le_trans (total_le_total (fun _ ↦ Nat.min_le_right _ _) _)
    (total_count_le_length ys (pairwise_distinct xs))

end NearClone.Listing
