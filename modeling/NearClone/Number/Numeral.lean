import NearClone.Number.Layout
import NearClone.Number.Scalar
import NearClone.Text.Blank
import NearClone.Text.Digit

/-!
Numbers that have a written form, and the instance for doubles: arithmetic is that of the machine,
rounding and writing are exact.
-/

set_option autoImplicit false
set_option relaxedAutoImplicit false

namespace NearClone

/-- Numbers that can be written and read as text. -/
class Numeral (α : Type) extends Scalar α where
  /-- The text with the fewest digits that identify the number. -/
  shortest : α → String
  /-- The text with so many decimal places. -/
  fixed : Nat → α → String
  /-- The integer that the number is, if it is one. -/
  toInt? : α → Option Int
  /-- Whether the number is neither an infinity nor the result that is no number. -/
  isFinite : α → Bool
  /-- The number nearest to `± digits * 10 ^ exponent`. -/
  ofDecimal : (negative : Bool) → (digits : Nat) → (exponent : Int) → α
  /-- The number that a word such as `inf` names. -/
  ofWord? : (negative : Bool) → (word : String) → Option α

namespace Number

/-- Numbers are written positionally from 10⁻⁴ up to below 10¹⁶, and an exponent has at least two
digits. -/
def standard : Layout where
  plainFrom := -4
  plainBelow := 16
  exponentWidth := 2

/-- A double at a given number of decimal places: the exact binary value is rounded, a tie to the
even neighbour, and the nearest double taken. -/
def roundFloat (places : Nat) (x : Float) : Float :=
  match Binary.ofFloat? x with
  | none => x
  | some b => ofDecimal b.negative (b.units places) (-(places : Int))

/-- Where a double lies in relation to an integer. Both are taken exactly, and a result that is no
number lies nowhere. -/
def placeOfFloat? (x : Float) (n : Int) : Option Ordering :=
  match Binary.ofFloat? x with
  | some b =>
    let numerator : Int := b.numerator
    let signed := if b.negative then -numerator else numerator
    some (Ord.compare signed (n * b.denominator))
  | none => if x.isNaN then none else some (if x < 0.0 then .lt else .gt)

/-- The double that a word names: an infinity, or the result that is no number. -/
def ofWord? (negative : Bool) (word : String) : Option Float :=
  let magnitude : Option Float :=
    match word.toLower with
    | "inf" | "infinity" => some (1.0 / 0.0)
    | "nan" => some (0.0 / 0.0)
    | _ => none
  magnitude.map fun x ↦ if negative then -x else x

end Number

instance Scalar.float : Scalar Float where
  decLe := inferInstance
  decLt := inferInstance
  ofInt n := Number.ofDecimal (n < 0) n.natAbs 0
  roundTo := Number.roundFloat
  place? := Number.placeOfFloat?

instance Numeral.float : Numeral Float where
  shortest := Number.standard.shortest
  fixed := Number.fixed
  toInt? x := (Number.Binary.ofFloat? x).bind Number.Binary.toInt?
  isFinite := Float.isFinite
  ofDecimal := Number.ofDecimal
  ofWord? := Number.ofWord?

namespace Numeral

/-- Takes a sign off the front; the flag tells a minus. -/
def splitSign : List Char → Bool × List Char
  | '-' :: rest => (true, rest)
  | '+' :: rest => (false, rest)
  | rest => (false, rest)

/-- An exponent: a sign at most, and at least one digit. -/
def exponent? (cs : List Char) : Option Int :=
  let (negative, digits) := splitSign cs
  if digits.isEmpty || !digits.all Char.isDigit then none
  else
    let n : Int := Text.digitsValue digits
    some (if negative then -n else n)

variable {α : Type} [Numeral α]

/-- Reads a number in decimal or exponent form. A digit must stand before or after the point; the
words for an infinity are numbers too. -/
def ofChars? (cs : List Char) : Option α :=
  let (negative, body) := splitSign cs
  let whole := body.takeWhile Char.isDigit
  let (fraction, rest) : List Char × List Char :=
    match body.dropWhile Char.isDigit with
    | '.' :: rest => (rest.takeWhile Char.isDigit, rest.dropWhile Char.isDigit)
    | rest => ([], rest)
  if whole.isEmpty && fraction.isEmpty then ofWord? negative (String.ofList body)
  else
    let exponent : Option Int :=
      match rest with
      | [] => some 0
      | mark :: digits => if mark = 'e' || mark = 'E' then exponent? digits else none
    exponent.map fun e ↦
      ofDecimal negative (Text.digitsValue (whole ++ fraction)) (e - fraction.length)

/-- Drops the underscores between other characters. None may stand first, last or doubled. -/
def withoutUnderscores? (cs : List Char) : Option (List Char) :=
  let doubled := (cs.zip cs.tail).any fun p ↦ p.1 = '_' && p.2 = '_'
  if cs.head? = some '_' || cs.getLast? = some '_' || doubled then none
  else some (cs.filter (· ≠ '_'))

/-- Reads a number from a text: either white space may surround it, or underscores may group its
digits. -/
def ofText? (text : String) : Option α :=
  (ofChars? (Text.trimList Text.isSpace text.toList)).or
    ((withoutUnderscores? text.toList).bind ofChars?)

end Numeral

end NearClone
