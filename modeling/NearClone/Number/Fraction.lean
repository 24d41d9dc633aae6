import NearClone.Number.Numeral

/-!
Exact rationals in written form. A decimal is read as the fraction that it is, and a rational that
no finite decimal equals is written as a fraction.
-/

set_option autoImplicit false
set_option relaxedAutoImplicit false

namespace NearClone

namespace Number

/-- The rational `± digits * 10 ^ exponent`. -/
def ratOfDecimal (negative : Bool) (digits : Nat) (exponent : Int) : Rat :=
  let magnitude : Int := digits * Nat.pow 10 exponent.toNat
  mkRat (if negative then -magnitude else magnitude) (Nat.pow 10 (-exponent).toNat)

/-- A rational with a fixed number of decimal places, a tie to the even neighbour. The sign of a
negative number stays even when every digit shown is zero. -/
def fixedRat (places : Nat) (x : Rat) : String :=
  let sign := if x.num < 0 then "-" else ""
  sign ++ positional places (nearest (x.num.natAbs * Nat.pow 10 places) x.den)

end Number

/-- Rationals are all finite, so no word names one. -/
instance Numeral.rat : Numeral Rat where
  shortest := toString
  fixed := Number.fixedRat
  toInt? x := if x.den = 1 then some x.num else none
  isFinite _ := true
  ofDecimal := Number.ratOfDecimal
  ofWord? _ _ := none

end NearClone
