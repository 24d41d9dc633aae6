import NearClone.Number.Word

/-!
Places in a list, counted from either end.
-/

set_option autoImplicit false
set_option relaxedAutoImplicit false

namespace NearClone.Listing

variable {α : Type}

/-- The item at a place. From zero on places count from the front, and below zero from the end,
where the last item has place minus one. -/
def at? (xs : List α) : Int → Option α
  | .ofNat n => xs[n]?
  | .negSucc n => xs.reverse[n]?

@[simp]
theorem at?_natCast (xs : List α) (n : Nat) : at? xs n = xs[n]? := rfl

/-- Why there is no item at a place. -/
inductive PlaceFlaw where
  /-- The list does not reach so far. -/
  | outside
  /-- The place fits into no word, so that no list reaches it. -/
  | unaddressable
  deriving DecidableEq, Repr

/-- What is wrong with a place that a list does not have. -/
def PlaceFlaw.ofPlace (place : Int) : PlaceFlaw :=
  if Number.fitsWord place then outside else unaddressable

/-- The item at a place, or why there is none. -/
def fetch (xs : List α) (place : Int) : Except PlaceFlaw α :=
  match at? xs place with
  | some x => .ok x
  | none => .error (.ofPlace place)

theorem fetch_eq_ok_iff (xs : List α) (place : Int) (x : α) :
    fetch xs place = .ok x ↔ at? xs place = some x := by
  cases h : at? xs place <;> simp [fetch, h]

end NearClone.Listing
