/-!
Association lists in order of first assignment.
-/

set_option autoImplicit false
set_option relaxedAutoImplicit false

namespace NearClone.Listing

variable {κ β : Type} [DecidableEq κ]

/-- Assigns a value: a new key goes to the end, a present one keeps its place and loses its old
value. -/
def assign (key : κ) (value : β) : List (κ × β) → List (κ × β)
  | [] => [(key, value)]
  | (other, old) :: rest =>
    if other = key then (other, value) :: rest else (other, old) :: assign key value rest

/-- The outcome of assigning one after the other. -/
def assignAll (pairs : List (κ × β)) : List (κ × β) :=
  pairs.foldl (fun done p ↦ assign p.1 p.2 done) []

@[simp]
theorem lookup_assign_self (key : κ) (value : β) (pairs : List (κ × β)) :
    (assign key value pairs).lookup key = some value := by
  induction pairs with
  | nil => simp [assign]
  | cons p rest ih =>
    obtain ⟨other, old⟩ := p
    by_cases h : other = key
    · simp [assign, h]
    · have hne : (key == other) = false := by simpa using Ne.symm h
      simp [assign, h, List.lookup_cons, hne, ih]

/-- Other keys keep their values. -/
theorem lookup_assign_of_ne {key other : κ} (h : other ≠ key) (value : β)
    (pairs : List (κ × β)) : (assign key value pairs).lookup other = pairs.lookup other := by
  induction pairs with
  | nil =>
    have hne : (other == key) = false := by simpa using h
    simp [assign, List.lookup_cons, hne]
  | cons p rest ih =>
    obtain ⟨name, old⟩ := p
    by_cases hk : name = key
    · subst hk
      have hne : (other == name) = false := by simpa using h
      simp [assign, List.lookup_cons, hne]
    · simp [assign, hk, List.lookup_cons, ih]

end NearClone.Listing
