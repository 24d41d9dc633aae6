import NearClone.Text.Blank
import NearClone.Text.Digit

/-!
The words of an identifier. A cut falls between two neighbouring characters when a letter meets a
digit, when a lower-case letter meets an upper-case one, and before the last capital of a run of
capitals that goes on in lower case.
-/

set_option autoImplicit false
set_option relaxedAutoImplicit false

namespace NearClone.Identifier

/-- A character that belongs to a word: an ASCII letter, or a decimal digit of any script. -/
def isWordChar (c : Char) : Bool := c.isUpper || c.isLower || Text.isDecimalDigit c

/-- Whether a word that goes on with `rest` may not be cut before it. -/
def joins (c : Char) : List Char → Bool
  | [] => false
  | d :: rest =>
    (Text.isDecimalDigit c && Text.isDecimalDigit d)
      || (c.isLower && d.isLower)
      || (c.isUpper && d.isLower)
      || (c.isUpper && d.isUpper && !(rest.head?.any Char.isLower))

/-- The words of a text; characters that belong to no word are dropped. -/
def wordsOf : List Char → List (List Char)
  | [] => []
  | c :: cs =>
    if isWordChar c then
      match wordsOf cs with
      | [] => [[c]]
      | word :: rest => if joins c cs then (c :: word) :: rest else [c] :: word :: rest
    else wordsOf cs

/-- The last part of a qualified name, without its parameter list. -/
def simpleName (cs : List Char) : List Char :=
  let qualified := cs.takeWhile (· ≠ '(')
  (qualified.reverse.takeWhile fun c ↦ c ≠ '#' && c ≠ '.').reverse

/-- The words of an identifier in lower case. -/
def words (name : String) : List String :=
  (wordsOf (simpleName name.toList)).map fun w ↦ String.ofList (w.map Char.toLower)

/-- A word with its first letter in upper case. -/
def capitalize (word : String) : String :=
  match word.toList with
  | [] => ""
  | c :: cs => String.ofList (c.toUpper :: cs)

/-- Whether a word starts with a digit. -/
def startsWithDigit (word : String) : Bool := word.toList.head?.any Text.isDecimalDigit

/-- Words in lower camel case. -/
def camelCase : List String → String
  | [] => ""
  | word :: rest => word ++ String.join (rest.map capitalize)

end NearClone.Identifier
