import Mathlib.Order.Lattice
import NearClone.EditDistance
import NearClone.Proofs.Listing.Shared

/-!
# Laws of the edit distance

The edit distance does not depend on the order of the two lists (`distance_comm`), is zero between a
list and itself, and is never more than the length of the longer list (`distance_self`,
`distance_le_max_length`). Lists can be edited piece by piece (`distance_append_le`). Every element
of the longer list that is not paid for by an edit belongs to a common part of the two lists, in
order (`exists_sublist_of_distance`), and so is shared with the other one
(`max_length_le_distance_add_sharedCount`).
-/

set_option autoImplicit false
set_option relaxedAutoImplicit false

namespace NearClone.EditDistance

open Listing

variable {κ : Type} [DecidableEq κ]

/-- Turning one list into another costs as much as turning it back. -/
theorem distance_comm (xs ys : List κ) : distance xs ys = distance ys xs := by
  induction xs generalizing ys with
  | nil => rw [distance_nil_left, distance_nil_right]
  | cons x xs ihx =>
    induction ys with
    | nil => rw [distance_nil_left, distance_nil_right]
    | cons y ys ihy =>
      -- A deletion on one side is an insertion on the other.
      rw [distance_cons_cons, distance_cons_cons, ihx (y :: ys), ihx ys, ihy,
        min_comm (distance (y :: ys) xs + 1)]
      simp only [eq_comm]

/-- Nothing must be changed to keep a list. -/
@[simp]
theorem distance_self (xs : List κ) : distance xs xs = 0 := by
  induction xs with
  | nil => rw [distance_nil_left, List.length_nil]
  | cons x xs ih => rw [distance_cons_cons, if_pos rfl, ih, Nat.min_zero]

/-! ### The choices of the table -/

/-- An entry of the table is reached by a deletion, by an insertion, or by keeping or replacing the
first element. -/
theorem distance_cons_cons_cases (x y : κ) (xs ys : List κ) :
    distance (x :: xs) (y :: ys) = distance xs (y :: ys) + 1 ∨
      distance (x :: xs) (y :: ys) = distance (x :: xs) ys + 1 ∨
      distance (x :: xs) (y :: ys) = distance xs ys + if x = y then 0 else 1 := by
  rw [distance_cons_cons]
  split <;> omega

/-- An element in front can be deleted. -/
theorem distance_cons_left_le (x : κ) (xs ys : List κ) :
    distance (x :: xs) ys ≤ distance xs ys + 1 := by
  cases ys with
  | nil => rw [distance_nil_right, distance_nil_right, List.length_cons]
  | cons y ys =>
    rw [distance_cons_cons]
    omega

/-- An element in front can be inserted. -/
theorem distance_cons_right_le (xs : List κ) (y : κ) (ys : List κ) :
    distance xs (y :: ys) ≤ distance xs ys + 1 := by
  rw [distance_comm xs, distance_comm xs]
  exact distance_cons_left_le y ys xs

/-- The first element can be kept or replaced. -/
theorem distance_cons_cons_le (x y : κ) (xs ys : List κ) :
    distance (x :: xs) (y :: ys) ≤ distance xs ys + if x = y then 0 else 1 := by
  rw [distance_cons_cons]
  split <;> omega

/-! ### Bounds -/

/-- To replace every element costs no more than the longer list has elements. -/
theorem distance_le_max_length (xs ys : List κ) : distance xs ys ≤ max xs.length ys.length := by
  induction xs generalizing ys with
  | nil => rw [distance_nil_left, List.length_nil, Nat.zero_max]
  | cons x xs ih =>
    cases ys with
    | nil => rw [distance_nil_right, List.length_nil, Nat.max_zero]
    | cons y ys =>
      have hrest := ih ys
      have hfirst := distance_cons_cons_le x y xs ys
      rw [List.length_cons, List.length_cons]
      split at hfirst <;> omega

/-- Two lists can be edited piece by piece. -/
theorem distance_append_le (xs xs' ys ys' : List κ) :
    distance (xs ++ xs') (ys ++ ys') ≤ distance xs ys + distance xs' ys' := by
  induction xs generalizing ys with
  | nil =>
    induction ys with
    | nil => exact Nat.le_add_left _ _
    | cons y ys ih =>
      have hinsert := distance_cons_right_le ([] ++ xs') y (ys ++ ys')
      rw [distance_nil_left] at ih
      rw [distance_nil_left, List.length_cons, List.cons_append]
      omega
  | cons x xs ihx =>
    induction ys with
    | nil =>
      have hdelete := distance_cons_left_le x (xs ++ xs') ([] ++ ys')
      have hrest := ihx []
      rw [distance_nil_right] at hrest
      rw [distance_nil_right, List.length_cons, List.cons_append]
      omega
    | cons y ys ihy =>
      -- The choice that the table makes for the first pieces is open to the whole lists.
      have hdelete := distance_cons_left_le x (xs ++ xs') (y :: ys ++ ys')
      have hinsert := distance_cons_right_le (x :: xs ++ xs') y (ys ++ ys')
      have hboth := distance_cons_cons_le x y (xs ++ xs') (ys ++ ys')
      have hdeleted := ihx (y :: ys)
      have hreplaced := ihx ys
      simp only [List.cons_append] at hdelete hinsert hdeleted ihy ⊢
      rcases distance_cons_cons_cases x y xs ys with hcase | hcase | hcase <;> omega

/-- Around a common element two lists can be edited piece by piece. -/
theorem distance_append_cons_le (xs xs' ys ys' : List κ) (x : κ) :
    distance (xs ++ x :: xs') (ys ++ x :: ys') ≤ max xs.length ys.length + distance xs' ys' := by
  have happend := distance_append_le xs (x :: xs') ys (x :: ys')
  have hfront := distance_le_max_length xs ys
  have hback := distance_cons_cons_le x x xs' ys'
  rw [if_pos rfl] at hback
  omega

/-- What the longer list has beyond the edits is a common part of the two lists, in order. -/
theorem exists_sublist_of_distance (xs ys : List κ) :
    ∃ zs : List κ, zs.Sublist xs ∧ zs.Sublist ys ∧
      max xs.length ys.length ≤ distance xs ys + zs.length := by
  induction xs generalizing ys with
  | nil => exact ⟨[], List.nil_sublist _, List.nil_sublist _, by simp⟩
  | cons x xs ihx =>
    induction ys with
    | nil => exact ⟨[], List.nil_sublist _, List.nil_sublist _, by simp⟩
    | cons y ys ihy =>
      rw [List.length_cons, List.length_cons]
      rcases distance_cons_cons_cases x y xs ys with hcase | hcase | hcase
      · obtain ⟨zs, hxs, hys, hlength⟩ := ihx (y :: ys)
        rw [List.length_cons] at hlength
        exact ⟨zs, hxs.cons x, hys, by omega⟩
      · obtain ⟨zs, hxs, hys, hlength⟩ := ihy
        rw [List.length_cons] at hlength
        exact ⟨zs, hxs, hys.cons y, by omega⟩
      · obtain ⟨zs, hxs, hys, hlength⟩ := ihx ys
        by_cases hxy : x = y
        · subst hxy
          rw [if_pos rfl] at hcase
          refine ⟨x :: zs, hxs.cons_cons x, hys.cons_cons x, ?_⟩
          rw [List.length_cons]
          omega
        · rw [if_neg hxy] at hcase
          exact ⟨zs, hxs.cons x, hys.cons y, by omega⟩

/-- What the longer list has beyond the edits is shared. -/
theorem max_length_le_distance_add_sharedCount (xs ys : List κ) :
    max xs.length ys.length ≤ distance xs ys + sharedCount xs ys := by
  obtain ⟨zs, hxs, hys, hlength⟩ := exists_sublist_of_distance xs ys
  have hshared := length_le_sharedCount_of_sublist hxs hys
  omega

end NearClone.EditDistance
