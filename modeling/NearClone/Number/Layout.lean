import NearClone.Number.Shortest

/-!
How chosen digits are laid out as text, and how the text of a decimal is read. The places where
positional writing ends are fields of a record, so that the format is stated in one value.
-/

set_option autoImplicit false
set_option relaxedAutoImplicit false

namespace NearClone.Number

/-- Decisions of a number format. -/
structure Layout where
  /-- The least exponent of the leading digit that is still written positionally. -/
  plainFrom : Int
  /-- The least exponent of the leading digit that is no longer written positionally. -/
  plainBelow : Int
  /-- The least number of digits of a written exponent. -/
  exponentWidth : Nat

/-- So many zeros. -/
def zeros (n : Nat) : String := String.ofList (List.replicate n '0')

/-- The digits of a natural, padded with zeros on the left to a least width. -/
def padded (width n : Nat) : String :=
  let digits := toString n
  zeros (width - digits.length) ++ digits

namespace Layout

/-- A non-zero decimal as text: positional with at least one digit after the point, or with a
signed exponent. -/
def decimal (layout : Layout) (d : Decimal) : String :=
  let digits := (toString d.digits).toList
  let point : Int := digits.length + d.exponent
  let leading := point - 1
  if layout.plainFrom ≤ leading ∧ leading < layout.plainBelow then
    if point ≤ 0 then
      "0." ++ zeros (-point).toNat ++ String.ofList digits
    else if (digits.length : Int) ≤ point then
      String.ofList digits ++ zeros (point - digits.length).toNat ++ ".0"
    else
      String.ofList (digits.take point.toNat) ++ "." ++ String.ofList (digits.drop point.toNat)
  else
    let tail := if digits.length = 1 then "" else "." ++ String.ofList (digits.drop 1)
    let sign := if leading < 0 then "-" else "+"
    String.ofList (digits.take 1) ++ tail ++ "e" ++ sign
      ++ padded layout.exponentWidth leading.natAbs

/-- A double as text with the fewest digits that identify it. -/
def shortest (layout : Layout) (x : Float) : String :=
  match Binary.ofFloat? x with
  | none => if x.isNaN then "nan" else if x < 0.0 then "-inf" else "inf"
  | some b =>
    let sign := if b.negative then "-" else ""
    if b.significand = 0 then sign ++ "0.0" else sign ++ layout.decimal b.shortest

end Layout

/-- So many units of the last of so many decimal places. -/
def positional (places units : Nat) : String :=
  let unit := Nat.pow 10 places
  let whole := toString (units / unit)
  let fraction := if places = 0 then "" else "." ++ padded places (units % unit)
  whole ++ fraction

/-- A double with a fixed number of decimal places, a tie to the even neighbour. The sign of a
negative number stays even when every digit shown is zero. -/
def fixed (places : Nat) (x : Float) : String :=
  match Binary.ofFloat? x with
  | none => if x.isNaN then "nan" else if x < 0.0 then "-inf" else "inf"
  | some b =>
    let sign := if b.negative then "-" else ""
    sign ++ positional places (b.units places)

/-- The double nearest to `± digits * 10 ^ exponent`. Beyond four hundred decimal places on either
side the answer is infinite or zero without forming the power. -/
def ofDecimal (negative : Bool) (digits : Nat) (exponent : Int) : Float :=
  let top : Int := (Binary.digitCount digits : Int) + exponent
  let magnitude : Float :=
    if digits = 0 ∨ top < -400 then 0.0
    else if 400 < top then 1.0 / 0.0
    else Float.ofScientific (digits * Nat.pow 10 exponent.toNat) true (-exponent).toNat
  if negative then -magnitude else magnitude

end NearClone.Number
