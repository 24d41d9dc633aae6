/-!
Characters from bytes. A text may have been written in units of one, two or four bytes; which one it
was shows in the zero bytes at its start, as long as its first characters are ASCII.
-/

set_option autoImplicit false
set_option relaxedAutoImplicit false

namespace NearClone.Text

/-- The character that a pair of sixteen-bit units encodes, the first high and the second low. -/
def pairedChar? (high low : Nat) : Option Char :=
  if 0xD800 ≤ high ∧ high < 0xDC00 ∧ 0xDC00 ≤ low ∧ low < 0xE000 then
    some (Char.ofNat (0x10000 + (high - 0xD800) * 0x400 + (low - 0xDC00)))
  else none

/-- The character of a unit that stands alone; half of a pair becomes the replacement character. -/
def singleChar (unit : Nat) : Char :=
  if 0xD800 ≤ unit ∧ unit < 0xE000 then Char.ofNat 0xFFFD else Char.ofNat unit

/-- The order of the bytes in a unit: the most or the least significant one first. -/
inductive ByteOrder where
  | big
  | little
  deriving DecidableEq, Repr

namespace ByteOrder

/-- The number that the bytes of a unit make up. -/
def unit : ByteOrder → List Nat → Nat
  | big, bytes => bytes.foldl (fun n b ↦ 256 * n + b) 0
  | little, bytes => bytes.foldr (fun b n ↦ 256 * n + b) 0

/-- Units of two bytes; none if a byte is left over. -/
def pairs? (order : ByteOrder) : List Nat → Option (List Nat)
  | [] => some []
  | a :: b :: rest => (pairs? order rest).map (order.unit [a, b] :: ·)
  | _ => none

/-- Units of four bytes; none if bytes are left over. -/
def quads? (order : ByteOrder) : List Nat → Option (List Nat)
  | [] => some []
  | a :: b :: c :: d :: rest => (quads? order rest).map (order.unit [a, b, c, d] :: ·)
  | _ => none

end ByteOrder

/-- The characters of sixteen-bit units. -/
def charsOfUnits : List Nat → List Char
  | high :: low :: rest =>
    match pairedChar? high low with
    | some c => c :: charsOfUnits rest
    | none => singleChar high :: charsOfUnits (low :: rest)
  | [unit] => [singleChar unit]
  | [] => []

/-- The size of the units of a text, and the order of their bytes. -/
inductive Encoding where
  | bytes
  | pairs (order : ByteOrder)
  | quads (order : ByteOrder)
  deriving DecidableEq, Repr

namespace Encoding

/-- The encoding that the first bytes of a text suggest. -/
def detect : List Nat → Encoding
  | [0, _] => pairs .big
  | [_, 0] => pairs .little
  | 0 :: b :: _ :: _ :: _ => if b = 0 then quads .big else pairs .big
  | _ :: 0 :: c :: d :: _ => if c = 0 ∧ d = 0 then quads .little else pairs .little
  | _ => bytes

end Encoding

/-- Removes the mark for its encoding from the front of a text. -/
def withoutMark : List Char → List Char
  | c :: rest => if c = Char.ofNat 0xFEFF then rest else c :: rest
  | [] => []

/-- Reads the bytes of a text again in the encoding that they suggest; none if they do not fit. -/
def reread? (s : String) : Option String :=
  let bytes := s.toUTF8.data.toList.map UInt8.toNat
  match Encoding.detect bytes with
  | .bytes => some (String.ofList (withoutMark s.toList))
  | .pairs order => (order.pairs? bytes).map fun units ↦ String.ofList (charsOfUnits units)
  | .quads order =>
    (order.quads? bytes).bind fun units ↦
      if units.all (· < 0x110000) then some (String.ofList (units.map singleChar)) else none

end NearClone.Text
