import NearClone.Number.Scalar

/-!
Integers and other numbers side by side. Integers are exact whatever their size, also in comparison
with other numbers.
-/

set_option autoImplicit false
set_option relaxedAutoImplicit false

namespace NearClone

/-- An integer or a number. -/
inductive Quantity (α : Type) where
  | int (value : Int)
  | real (value : α)
  deriving DecidableEq, Repr

namespace Quantity

variable {α : Type} [Scalar α]

/-- The number nearest to a quantity. -/
def toReal : Quantity α → α
  | int n => Scalar.ofInt n
  | real x => x

/-- The sum. That of two integers is an integer. -/
def add : Quantity α → Quantity α → Quantity α
  | int m, int n => int (m + n)
  | a, b => real (a.toReal + b.toReal)

/-- Whether one quantity is less than another. -/
def isLess : Quantity α → Quantity α → Bool
  | int m, int n => m < n
  | int n, real x => Scalar.place? x n = some .gt
  | real x, int n => Scalar.place? x n = some .lt
  | real x, real y => x < y

/-- Over exact numbers the order is that of the values. -/
theorem isLess_rat (a b : Quantity Rat) : a.isLess b = decide (a.toReal < b.toReal) := by
  match a, b with
  | int m, int n =>
    change decide (m < n) = decide ((m : Rat) < n)
    exact decide_eq_decide.2 Rat.intCast_lt_intCast.symm
  | int n, real x =>
    change decide (some (if x < n then Ordering.lt else if n < x then .gt else .eq) = some .gt) =
      decide ((n : Rat) < x)
    grind
  | real x, int n =>
    change decide (some (if x < n then Ordering.lt else if n < x then .gt else .eq) = some .lt) =
      decide (x < (n : Rat))
    grind
  | real _, real _ => rfl

end Quantity

end NearClone
