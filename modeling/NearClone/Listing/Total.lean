/-!
The sum of a count over a list.
-/

set_option autoImplicit false
set_option relaxedAutoImplicit false

namespace NearClone.Listing

variable {β γ : Type}

/-- The sum of a count over the elements of a list. -/
def total (count : β → Nat) (xs : List β) : Nat := xs.foldr (fun x rest ↦ count x + rest) 0

@[simp]
theorem total_nil (count : β → Nat) : total count [] = 0 := rfl

@[simp]
theorem total_cons (count : β → Nat) (x : β) (xs : List β) :
    total count (x :: xs) = count x + total count xs := rfl

@[simp]
theorem total_append (count : β → Nat) (xs ys : List β) :
    total count (xs ++ ys) = total count xs + total count ys := by
  induction xs with
  | nil => simp
  | cons x xs ih => simp [ih, Nat.add_assoc]

/-- The sum over images. -/
theorem total_map (count : γ → Nat) (f : β → γ) (xs : List β) :
    total count (xs.map f) = total (fun x ↦ count (f x)) xs :=
  List.foldr_map

/-- The sum of two counts is the sum of their sums. -/
theorem total_add (f g : β → Nat) (xs : List β) :
    total (fun x ↦ f x + g x) xs = total f xs + total g xs := by
  induction xs with
  | nil => rfl
  | cons x xs ih =>
    simp only [total_cons, ih]
    omega

/-- A smaller count has a smaller sum. -/
theorem total_le_total {f g : β → Nat} (h : ∀ x, f x ≤ g x) (xs : List β) :
    total f xs ≤ total g xs := by
  induction xs with
  | nil => exact Nat.le_refl 0
  | cons x xs ih => exact Nat.add_le_add (h x) ih

end NearClone.Listing
