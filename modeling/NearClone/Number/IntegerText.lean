import NearClone.Number.Numeral

/-!
Integers in written form. White space may surround them and underscores may group their digits, a
sign and superfluous zeros may stand before them, and a point with nothing but zeros after them.
-/

set_option autoImplicit false
set_option relaxedAutoImplicit false

namespace NearClone.Number

/-- Why a text is not read as an integer. -/
inductive IntegerFlaw where
  | malformed
  | oversized
  deriving DecidableEq, Repr

/-- An integer has at most so many digits. -/
def digitLimit : Nat := 4300

/-- A digit other than zero, or a minus. -/
def startsInteger (c : Char) : Bool := c = '-' || (c.isDigit && c ≠ '0')

/-- Takes superfluous zeros off the front, with the underscores among them. What follows is a
fraction, which keeps the last character before its point, or starts with another digit or a minus.
Where nothing follows, the last character stays. -/
def withoutZeros? (cs : List Char) : Option (List Char) :=
  let isZero : Char → Bool := fun c ↦ c = '0' || c = '_'
  match cs with
  | '0' :: _ =>
    let last := ((cs.takeWhile isZero).getLast?).toList
    match cs.dropWhile isZero with
    | [] => some last
    | '.' :: rest => some (last ++ '.' :: rest)
    | c :: rest => if startsInteger c then some (c :: rest) else none
  | c :: rest => if startsInteger c then some (c :: rest) else none
  | [] => none

/-- Takes a plus off the front and superfluous zeros behind a sign. -/
def withoutPadding? : List Char → Option (List Char)
  | '+' :: '-' :: _ => none
  | '+' :: rest => withoutZeros? rest
  | '-' :: rest => (withoutZeros? rest).map ('-' :: ·)
  | cs => withoutZeros? cs

/-- Takes a point off the end, with the zeros after it, of which there is at least one. -/
def withoutFraction (cs : List Char) : List Char :=
  match cs.dropWhile (· ≠ '.') with
  | '.' :: '0' :: zeros => if zeros.all (· = '0') then cs.takeWhile (· ≠ '.') else cs
  | _ => cs

/-- The natural that digits without superfluous zeros write. Too many digits are told whatever
follows them. -/
def naturalOfChars (cs : List Char) : Except IntegerFlaw Nat :=
  if cs.head? = some '0' then (if cs = ['0'] then .ok 0 else .error .malformed)
  else if digitLimit < (cs.takeWhile Char.isDigit).length then .error .oversized
  else if cs.isEmpty || !cs.all Char.isDigit then .error .malformed
  else .ok (Text.digitsValue cs)

/-- The integer that a minus at most and digits without superfluous zeros write. -/
def integerOfChars : List Char → Except IntegerFlaw Int
  | '-' :: rest => (naturalOfChars rest).map fun n ↦ -(n : Int)
  | cs => (naturalOfChars cs).map fun n ↦ n

/-- The bare digits of an integer, behind a minus at most: without the white space around it, what
pads it, its fraction and its underscores. -/
def bareDigits? (cs : List Char) : Option (List Char) :=
  ((withoutPadding? (Text.trimList Text.isSpace cs)).map withoutFraction).bind
    Numeral.withoutUnderscores?

/-- Reads an integer from a text: from the text as it is, and otherwise from its bare digits. The
size is told only of a text that needs no clearing. -/
def integerOfText (text : String) : Except IntegerFlaw Int :=
  match integerOfChars text.toList with
  | .error .malformed =>
    match (bareDigits? text.toList).map integerOfChars with
    | some (.ok n) => .ok n
    | _ => .error .malformed
  | outcome => outcome

end NearClone.Number
