/-!
Rounding a quotient of naturals to the nearest natural. Halfway between two neighbours the even
one is taken, so that repeated rounding has no drift.
-/

set_option autoImplicit false
set_option relaxedAutoImplicit false

namespace NearClone.Number

/-- The natural nearest to `num / den`; halfway between two naturals, the even one. -/
def nearest (num den : Nat) : Nat :=
  let low := num / den
  let rest := 2 * (num % den)
  if den < rest ∨ (rest = den ∧ low % 2 = 1) then low + 1 else low

/-- A multiple of the divisor is divided exactly. -/
@[simp]
theorem nearest_mul_self (n den : Nat) (h : 0 < den) : nearest (n * den) den = n := by
  have h0 : den ≠ 0 := by omega
  simp [nearest, Nat.mul_div_cancel _ h, h0.symm]

end NearClone.Number
