/-!
The first element for every value of a key, in order of appearance, and groups of equal keys.
-/

set_option autoImplicit false
set_option relaxedAutoImplicit false

namespace NearClone.Listing

variable {β κ : Type} [DecidableEq κ]

/-- Keeps the first element for every value of the key. -/
def firstPer (key : β → κ) : List β → List β
  | [] => []
  | x :: xs => x :: (firstPer key xs).filter fun y ↦ key y ≠ key x

/-- The distinct elements in order of first appearance. -/
def distinct (xs : List κ) : List κ := firstPer id xs

/-- The groups of equal keys, in the order in which the keys first appear. A group keeps the order
of its elements. -/
def groupsBy (key : β → κ) (xs : List β) : List (κ × List β) :=
  (distinct (xs.map key)).map fun k ↦ (k, xs.filter fun x ↦ key x = k)

/-- Every kept element was there. -/
theorem mem_of_mem_firstPer {key : β → κ} {xs : List β} {x : β} (h : x ∈ firstPer key xs) :
    x ∈ xs := by
  induction xs with
  | nil => simp [firstPer] at h
  | cons y ys ih =>
    rcases List.mem_cons.1 h with rfl | h
    · exact List.mem_cons_self
    · exact List.mem_cons_of_mem _ (ih (List.mem_filter.1 h).1)

/-- No two kept elements share a key. -/
theorem pairwise_firstPer (key : β → κ) (xs : List β) :
    (firstPer key xs).Pairwise fun a b ↦ key a ≠ key b := by
  induction xs with
  | nil => exact List.Pairwise.nil
  | cons y ys ih =>
    refine List.Pairwise.cons ?_ (ih.filter _)
    intro b hb
    have hne : key b ≠ key y := by simpa using (List.mem_filter.1 hb).2
    exact hne.symm

/-- Every key is still there. -/
theorem exists_mem_firstPer (key : β → κ) {xs : List β} {x : β} (h : x ∈ xs) :
    ∃ y ∈ firstPer key xs, key y = key x := by
  induction xs with
  | nil => simp at h
  | cons z zs ih =>
    by_cases hz : key z = key x
    · exact ⟨z, List.mem_cons_self, hz⟩
    · rcases List.mem_cons.1 h with rfl | h
      · exact absurd rfl hz
      · obtain ⟨y, hy, hk⟩ := ih h
        have hne : key y ≠ key z := fun h' ↦ hz (h'.symm.trans hk)
        exact ⟨y, List.mem_cons_of_mem _ (List.mem_filter.2 ⟨hy, by simpa using hne⟩), hk⟩

end NearClone.Listing
