import NearClone.Number.Rounding

/-!
The numbers that scores, weights and thresholds are made of. Every rule of the library is written
over an arbitrary `Scalar`, so that one definition both runs on doubles and can be studied over
exact rationals.
-/

set_option autoImplicit false
set_option relaxedAutoImplicit false

namespace NearClone

/-- Numbers with field operations, a decidable order, decimal constants and rounding to a given
number of decimal places. -/
class Scalar (α : Type) extends Add α, Sub α, Mul α, Div α, LE α, LT α, OfScientific α where
  /-- The order is decidable. -/
  decLe : DecidableLE α
  /-- The strict order is decidable. -/
  decLt : DecidableLT α
  /-- The number nearest to an integer. -/
  ofInt : Int → α
  /-- The number rounded to so many decimal places, a tie to the even neighbour. -/
  roundTo : Nat → α → α
  /-- Where a number lies in relation to an integer, which is taken exactly; none if the two cannot
  be compared. -/
  place? : α → Int → Option Ordering

instance (priority := low) Scalar.decidableLE {α : Type} [Scalar α] : DecidableLE α := Scalar.decLe

instance (priority := low) Scalar.decidableLT {α : Type} [Scalar α] : DecidableLT α := Scalar.decLt

namespace Scalar

variable {α : Type} [Scalar α]

/-- The number nearest to a natural. -/
def ofNat (n : Nat) : α := ofInt n

/-- The quotient of two counts. -/
def ratio (part whole : Nat) : α := ofNat part / ofNat whole

/-- The sum of a list, added from the left, starting at zero. -/
def sum (xs : List α) : α := xs.foldl (· + ·) (ofInt 0)

/-- The arithmetic mean; zero for no numbers. -/
def mean (xs : List α) : α :=
  if xs.isEmpty then ofInt 0 else sum xs / ofNat xs.length

/-- Three-way comparison by the strict order. -/
def compare (x y : α) : Ordering :=
  if x < y then .lt else if y < x then .gt else .eq

@[simp]
theorem sum_nil : sum ([] : List α) = ofInt 0 := rfl

@[simp]
theorem mean_nil : mean ([] : List α) = ofInt 0 := rfl

end Scalar

namespace Number

/-- An exact rational at a given number of decimal places, a tie to the even neighbour. -/
def roundRat (places : Nat) (x : Rat) : Rat :=
  let scaled : Nat := nearest (x.num.natAbs * Nat.pow 10 places) x.den
  let signed : Int := if x.num < 0 then -scaled else scaled
  mkRat signed (Nat.pow 10 places)

end Number

/-- Exact arithmetic: nothing but `roundTo` ever loses a digit. -/
instance Scalar.rat : Scalar Rat where
  decLe := inferInstance
  decLt := inferInstance
  ofInt n := n
  roundTo := Number.roundRat
  place? x n := some (if x < n then .lt else if n < x then .gt else .eq)

@[simp]
theorem Scalar.ofInt_rat (n : Int) : (Scalar.ofInt n : Rat) = n := rfl

@[simp]
theorem Scalar.ofNat_rat (n : Nat) : (Scalar.ofNat n : Rat) = n := rfl

@[simp]
theorem Scalar.roundTo_rat (places : Nat) (x : Rat) :
    Scalar.roundTo places x = Number.roundRat places x := rfl

end NearClone
