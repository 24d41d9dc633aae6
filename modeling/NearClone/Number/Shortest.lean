import NearClone.Number.Binary

/-!
The fewest decimal digits that identify a double. A decimal identifies a double when it lies among
the reals that round to it; that interval ends halfway to either neighbour, and contains its ends
exactly when the significand is even. Grids of one, two, … digits are tried in turn, and on each
only the two points around the value can be the nearest that lies inside.
-/

set_option autoImplicit false
set_option relaxedAutoImplicit false

namespace NearClone.Number

/-- The decimal `digits * 10 ^ exponent`. -/
structure Decimal where
  digits : Nat
  exponent : Int
  deriving Repr, DecidableEq

/-- Compares `a * 10 ^ i` with `b * 2 ^ j` exactly. -/
def compareScaled (a : Nat) (i : Int) (b : Nat) (j : Int) : Ordering :=
  compare (a * Nat.pow 10 i.toNat * Nat.pow 2 (-j).toNat)
    (b * Nat.pow 2 j.toNat * Nat.pow 10 (-i).toNat)

namespace Decimal

/-- Moves the trailing zeros of the digits into the exponent, for at most so many steps. -/
def strip : Nat → Decimal → Decimal
  | 0, d => d
  | fuel + 1, d =>
    if d.digits % 10 = 0 ∧ d.digits ≠ 0 then strip fuel ⟨d.digits / 10, d.exponent + 1⟩ else d

end Decimal

namespace Binary

/-- Whether a decimal lies among the reals that round to the magnitude of this value. -/
def identifiedBy (x : Binary) (d : Decimal) : Bool :=
  let below := if x.narrowBelow then 4 * x.significand - 1 else 4 * x.significand - 2
  let above := 4 * x.significand + 2
  let low := compareScaled d.digits d.exponent below (x.exponent - 2)
  let high := compareScaled d.digits d.exponent above (x.exponent - 2)
  if x.significand % 2 = 0 then low != .lt && high != .gt else low == .gt && high == .lt

/-- The number of decimal digits of a natural. -/
def digitCount (n : Nat) : Nat := (Nat.toDigits 10 n).length

/-- The least power of ten that exceeds the magnitude of a non-zero value, as an exponent. -/
def scale (x : Binary) : Int :=
  let whole := x.numerator / x.denominator
  if whole = 0 then 1 - (digitCount ((x.denominator - 1) / x.numerator) : Int)
  else digitCount whole

/-- The point of a grid just below the magnitude, in units of `10 ^ exponent`. -/
def floorOn (x : Binary) (exponent : Int) : Nat :=
  x.numerator * Nat.pow 10 (-exponent).toNat / (x.denominator * Nat.pow 10 exponent.toNat)

/-- Of the two grid points around the magnitude, the nearer one that identifies it; at equal
distance the even one. -/
def nearestOn? (x : Binary) (exponent : Int) : Option Decimal :=
  let low : Decimal := ⟨x.floorOn exponent, exponent⟩
  let high : Decimal := ⟨x.floorOn exponent + 1, exponent⟩
  match x.identifiedBy low, x.identifiedBy high with
  | true, false => some low
  | false, true => some high
  | false, false => none
  | true, true =>
    match compareScaled (2 * low.digits + 1) exponent (2 * x.significand) x.exponent with
    | .gt => some low
    | .lt => some high
    | .eq => some (if low.digits % 2 = 0 then low else high)

/-- The magnitude with all its decimal digits. -/
def exactDecimal (x : Binary) : Decimal :=
  ⟨x.numerator * Nat.pow 5 (-x.exponent).toNat, min x.exponent 0⟩

/-- The decimal with the fewest digits that identifies the magnitude of a non-zero value; among
those the nearest. Seventeen digits are always enough. -/
def shortest (x : Binary) : Decimal :=
  let top := x.scale
  let found := (List.range 17).findSome? fun (n : Nat) ↦ x.nearestOn? (top - 1 - (n : Int))
  (found.getD x.exactDecimal).strip 400

end Binary

end NearClone.Number
