/-!
Characters that may surround a text without belonging to it. The two classes differ in the four
information separators, which count as blanks around a literal but not around a number.
-/

set_option autoImplicit false
set_option relaxedAutoImplicit false

namespace NearClone.Text

/-- Ranges of the characters with the white space property, in ascending order. -/
def spaceRanges : List (Nat × Nat) :=
  [(0x9, 0xD), (0x20, 0x20), (0x85, 0x85), (0xA0, 0xA0), (0x1680, 0x1680), (0x2000, 0x200A),
   (0x2028, 0x2029), (0x202F, 0x202F), (0x205F, 0x205F), (0x3000, 0x3000)]

/-- A character with the white space property. -/
def isSpace (c : Char) : Bool :=
  spaceRanges.any fun r ↦ r.1 ≤ c.toNat && c.toNat ≤ r.2

/-- White space or an information separator. -/
def isBlank (c : Char) : Bool :=
  isSpace c || (0x1C ≤ c.toNat && c.toNat ≤ 0x1F)

/-- Removes the characters of a class from both ends. -/
def trimList (p : Char → Bool) (cs : List Char) : List Char :=
  ((cs.dropWhile p).reverse.dropWhile p).reverse

/-- Cuts a text at every occurrence of a character; `n` occurrences give `n + 1` pieces. -/
def pieces (at? : Char → Bool) : List Char → List (List Char)
  | [] => [[]]
  | c :: cs =>
    if at? c then [] :: pieces at? cs
    else
      match pieces at? cs with
      | [] => [[c]]
      | piece :: rest => (c :: piece) :: rest

end NearClone.Text
