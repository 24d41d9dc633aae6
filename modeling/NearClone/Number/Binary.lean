import NearClone.Number.Rounding

/-!
The exact value of a double: a signed natural times a power of two. What is written or rounded is
always this value, never an approximation of it.
-/

set_option autoImplicit false
set_option relaxedAutoImplicit false

namespace NearClone.Number

/-- The finite value `± significand * 2 ^ exponent`. -/
structure Binary where
  negative : Bool
  significand : Nat
  exponent : Int
  /-- The next value toward zero is only half as far away as the next one outward. -/
  narrowBelow : Bool
  deriving Repr, DecidableEq

namespace Binary

/-- The finite value that a double holds; none for an infinity or a result that is no number. -/
def ofFloat? (x : Float) : Option Binary :=
  let bits := x.toBits.toNat
  let negative := bits / Nat.pow 2 63 % 2 == 1
  let field : Nat := bits / Nat.pow 2 52 % Nat.pow 2 11
  let fraction := bits % Nat.pow 2 52
  if field = 2047 then none
  else if field = 0 then some ⟨negative, fraction, -1074, false⟩
  else some ⟨negative, Nat.pow 2 52 + fraction, Int.ofNat field - 1075, fraction == 0 && 1 < field⟩

/-- The magnitude is `numerator / denominator`. -/
def numerator (x : Binary) : Nat := x.significand * Nat.pow 2 x.exponent.toNat

/-- The magnitude is `numerator / denominator`. -/
def denominator (x : Binary) : Nat := Nat.pow 2 (-x.exponent).toNat

/-- The magnitude in units of the last of so many decimal places, a tie to the even unit. -/
def units (x : Binary) (places : Nat) : Nat :=
  nearest (x.numerator * Nat.pow 10 places) x.denominator

/-- The integer that this value is, if it is one. -/
def toInt? (x : Binary) : Option Int :=
  if x.numerator % x.denominator = 0 then
    let n : Int := (x.numerator / x.denominator : Nat)
    some (if x.negative then -n else n)
  else none

end Binary

end NearClone.Number
