/-!
Integers that fit into a word of 64 bits, one of which is for the sign.
-/

set_option autoImplicit false
set_option relaxedAutoImplicit false

namespace NearClone.Number

/-- The integers that fit into a word lie between this bound and its negative. -/
def wordBound : Nat := Nat.pow 2 63

/-- Whether an integer fits into a word. The lower end does and the upper one does not. -/
def fitsWord (n : Int) : Bool := -(wordBound : Int) ≤ n && n < wordBound

end NearClone.Number
