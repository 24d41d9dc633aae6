/-!
Stable sorting by a three-way comparison.
-/

set_option autoImplicit false
set_option relaxedAutoImplicit false

namespace NearClone.Listing

variable {β : Type}

/-- The list in the order of a comparison; elements that compare equal keep their order. -/
def sortBy (cmp : β → β → Ordering) (xs : List β) : List β :=
  xs.mergeSort fun a b ↦ (cmp a b).isLE

@[simp]
theorem sortBy_nil (cmp : β → β → Ordering) : sortBy cmp [] = [] := by
  simp [sortBy]

/-- Sorting neither loses nor invents an element. -/
theorem sortBy_perm (cmp : β → β → Ordering) (xs : List β) : (sortBy cmp xs).Perm xs :=
  List.mergeSort_perm _ _

@[simp]
theorem mem_sortBy {cmp : β → β → Ordering} {xs : List β} {x : β} :
    x ∈ sortBy cmp xs ↔ x ∈ xs :=
  (sortBy_perm cmp xs).mem_iff

@[simp]
theorem length_sortBy (cmp : β → β → Ordering) (xs : List β) :
    (sortBy cmp xs).length = xs.length :=
  (sortBy_perm cmp xs).length_eq

/-- A sorted list ascends. -/
theorem pairwise_sortBy (cmp : β → β → Ordering) [Std.TransCmp cmp] (xs : List β) :
    (sortBy cmp xs).Pairwise fun a b ↦ (cmp a b).isLE := by
  apply List.pairwise_mergeSort
  · intro a b c hab hbc
    exact Std.TransCmp.isLE_trans hab hbc
  · intro a b
    have h : cmp b a = (cmp a b).swap := Std.OrientedCmp.eq_swap
    rw [h]
    cases cmp a b <;> rfl

/-- The first element that no other precedes; none for the empty list. -/
def least? (cmp : β → β → Ordering) : List β → Option β
  | [] => none
  | x :: xs => some (xs.foldl (fun best y ↦ if (cmp y best).isLT then y else best) x)

end NearClone.Listing
