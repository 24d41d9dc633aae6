import NearClone.Text.Blank
import NearClone.Text.Digit

/-!
The type of a literal, read off its spelling. Every class is a decision about a whole text: a sign,
a mark or a suffix can be taken off at a fixed place, because no character of the part that remains
could stand there.
-/

set_option autoImplicit false
set_option relaxedAutoImplicit false

namespace NearClone

/-- Types that a spelling can show. -/
inductive LiteralType where
  | integer
  | floating
  | boolean
  | string
  deriving DecidableEq, Repr

namespace LiteralType

/-- The written name of a type. -/
def name : LiteralType → String
  | integer => "integer"
  | floating => "floating"
  | boolean => "boolean"
  | string => "string"

/-- Different types have different names. -/
theorem name_injective : Function.Injective name := by
  intro a b h
  cases a <;> cases b <;> first | rfl | exact absurd h (by decide)

end LiteralType

namespace Literal

/-- A digit or a separator between digits. -/
def isDigitOrMark (c : Char) : Bool := Text.isDecimalDigit c || c = '_'

/-- A hexadecimal digit or a separator between digits. -/
def isHexOrMark (c : Char) : Bool :=
  ('0' ≤ c && c ≤ '9') || ('a' ≤ c && c ≤ 'f') || ('A' ≤ c && c ≤ 'F') || c = '_'

/-- A binary digit or a separator between digits. -/
def isBinaryOrMark (c : Char) : Bool := c = '0' || c = '1' || c = '_'

/-- A letter that may stand in front of a quoted text. -/
def isQuoteMark (c : Char) : Bool := "rRbBuUfF".toList.contains c

/-- The two words for truth values, in any case. -/
def isBoolean (cs : List Char) : Bool :=
  let lowered := cs.map Char.toLower
  lowered = "true".toList || lowered = "false".toList

/-- Takes one sign off the front. -/
def dropSign : List Char → List Char
  | '-' :: rest => rest
  | '+' :: rest => rest
  | rest => rest

/-- Takes one final character off if it belongs to a class. -/
def dropSuffix (p : Char → Bool) (cs : List Char) : List Char :=
  match cs.getLast? with
  | some c => if p c then cs.dropLast else cs
  | none => cs

/-- A digit, then digits and separators. -/
def isGrouped : List Char → Bool
  | [] => false
  | c :: rest => Text.isDecimalDigit c && rest.all isDigitOrMark

/-- Digits alone, at least one of them. -/
def isDigits (cs : List Char) : Bool := !cs.isEmpty && cs.all Text.isDecimalDigit

/-- Characters between quotes of one kind. Three quotes at either end allow any content, one quote
only content without it. -/
def isEnclosed (quote : Char) (cs : List Char) : Bool :=
  let three := [quote, quote, quote]
  let inner := cs.drop 1
  (three.isPrefixOf cs && three.isSuffixOf cs && 6 ≤ cs.length)
    || (cs.head? = some quote && cs.getLast? = some quote && 2 ≤ cs.length
      && !inner.dropLast.contains quote)

/-- At most two marks and a text between quotes. -/
def isString (cs : List Char) : Bool :=
  let marks := cs.takeWhile isQuoteMark
  let body := cs.dropWhile isQuoteMark
  marks.length ≤ 2 && (isEnclosed '"' body || isEnclosed '\'' body)

/-- An unsigned integer without suffix: hexadecimal, binary or decimal. -/
def isMagnitude : List Char → Bool
  | '0' :: mark :: digits =>
    ((mark = 'x' || mark = 'X') && !digits.isEmpty && digits.all isHexOrMark)
      || ((mark = 'b' || mark = 'B') && !digits.isEmpty && digits.all isBinaryOrMark)
      || isGrouped ('0' :: mark :: digits)
  | cs => isGrouped cs

/-- An integer: a sign, a magnitude and a suffix `l`. -/
def isInteger (cs : List Char) : Bool :=
  isMagnitude (dropSuffix (fun c ↦ c = 'l' || c = 'L') (dropSign cs))

/-- Digits with a point: before it grouped digits, after it digits, and one of the two sides may be
missing; or grouped digits without a point. -/
def isMantissa (cs : List Char) : Bool :=
  let whole := cs.takeWhile (· ≠ '.')
  match cs.dropWhile (· ≠ '.') with
  | [] => isGrouped whole
  | _ :: fraction =>
    (isGrouped whole && fraction.all Text.isDecimalDigit) || (whole.isEmpty && isDigits fraction)

/-- Whether a character opens an exponent. -/
def isExponentMark (c : Char) : Bool := c = 'e' || c = 'E'

/-- A mantissa and possibly an exponent. -/
def isScaled (cs : List Char) : Bool :=
  let mantissa := cs.takeWhile fun c ↦ !isExponentMark c
  match cs.dropWhile fun c ↦ !isExponentMark c with
  | [] => isMantissa mantissa
  | _ :: exponent => isMantissa mantissa && isDigits (dropSign exponent)

/-- A number: a sign, a mantissa, an exponent and a suffix. -/
def isNumber (cs : List Char) : Bool :=
  isScaled (dropSuffix (fun c ↦ "fFdD".toList.contains c) (dropSign cs))

/-- The type that the characters of a literal show. -/
def typeOfChars? (cs : List Char) : Option LiteralType :=
  if isBoolean cs then some .boolean
  else if isString cs then some .string
  else if isInteger cs then some .integer
  else if isNumber cs then some .floating
  else none

/-- The type of a literal; blanks around it do not count. -/
def typeOf? (text : String) : Option LiteralType :=
  typeOfChars? (Text.trimList Text.isBlank text.toList)

/-- The type that two literals share. -/
def commonType? (left right : String) : Option LiteralType :=
  match typeOf? left with
  | some t => if typeOf? right = some t then some t else none
  | none => none

theorem commonType?_comm (left right : String) :
    commonType? left right = commonType? right left := by
  simp only [commonType?]
  cases typeOf? left <;> cases typeOf? right <;> simp [eq_comm]
  split <;> simp_all

end Literal

end NearClone
