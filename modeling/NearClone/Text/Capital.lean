/-!
Texts in capitals, to be compared with names of ASCII letters. A character beyond ASCII matters only
if its capitals are ASCII letters themselves; all others stay as they are.
-/

set_option autoImplicit false
set_option relaxedAutoImplicit false

namespace NearClone.Text

/-- The characters beyond ASCII whose capitals are ASCII letters: the sharp s, the dotless i, the
long s and the Latin ligatures. -/
def foreignCapitals : List (Char × String) :=
  [('ß', "SS"), ('ı', "I"), ('ſ', "S"), ('ﬀ', "FF"), ('ﬁ', "FI"), ('ﬂ', "FL"), ('ﬃ', "FFI"),
   ('ﬄ', "FFL"), ('ﬅ', "ST"), ('ﬆ', "ST")]

/-- The capitals of a character. -/
def capitals (c : Char) : List Char :=
  match foreignCapitals.find? fun entry ↦ entry.1 = c with
  | some entry => entry.2.toList
  | none => [c.toUpper]

/-- A text in capitals. -/
def inCapitals (s : String) : String := String.ofList (s.toList.flatMap capitals)

end NearClone.Text
