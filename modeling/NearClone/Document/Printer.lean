import NearClone.Document.Basic

/-!
Writing a document as text: no gaps, fields in their order, numbers with the fewest digits, and
only printable ASCII.
-/

set_option autoImplicit false
set_option relaxedAutoImplicit false

namespace NearClone.Document

/-- The four hexadecimal digits of a sixteen-bit unit. -/
def unitDigits (unit : Nat) : String :=
  let digits := Nat.toDigits 16 unit
  String.ofList (List.replicate (4 - digits.length) '0' ++ digits)

/-- The escape of a sixteen-bit unit. -/
def unitEscape (unit : Nat) : String := "\\u" ++ unitDigits unit

/-- How a character is written inside a quoted text. Beyond the first plane it takes two units. -/
def escape (c : Char) : String :=
  if c = '"' then "\\\""
  else if c = '\\' then "\\\\"
  else if c = '\n' then "\\n"
  else if c = '\t' then "\\t"
  else if c = '\r' then "\\r"
  else
    let n := c.toNat
    if 0x20 ≤ n ∧ n < 0x7F then c.toString
    else if n < 0x10000 then unitEscape n
    else
      unitEscape (0xD800 + (n - 0x10000) / 0x400) ++ unitEscape (0xDC00 + (n - 0x10000) % 0x400)

/-- Appends a quoted text. -/
def appendQuoted (out : String) (s : String) : String :=
  s.foldl (fun out c ↦ out ++ escape c) (out ++ "\"") ++ "\""

variable {α : Type} [Numeral α]

/-- A number as it stands in a document. What is not finite has a word of its own there. -/
def numberText (x : α) : String :=
  match Numeral.shortest x with
  | "inf" => "Infinity"
  | "-inf" => "-Infinity"
  | "nan" => "NaN"
  | digits => digits

mutual

/-- Appends a document to a text. -/
def append (out : String) : Document α → String
  | null => out ++ "null"
  | flag true => out ++ "true"
  | flag false => out ++ "false"
  | int n => out ++ toString n
  | number x => out ++ numberText x
  | text s => appendQuoted out s
  | list items => appendItems (out ++ "[") true items ++ "]"
  | object fields => appendFields (out ++ "\x7b") true fields ++ "\x7d"

/-- Appends the items of a list with commas between them. -/
def appendItems (out : String) (first : Bool) : List (Document α) → String
  | [] => out
  | item :: rest => appendItems (append (if first then out else out ++ ",") item) false rest

/-- Appends the fields of an object with commas between them. -/
def appendFields (out : String) (first : Bool) : List (String × Document α) → String
  | [] => out
  | (name, value) :: rest =>
    let out := appendQuoted (if first then out else out ++ ",") name ++ ":"
    appendFields (append out value) false rest

end

/-- A document as text. -/
def render (d : Document α) : String := append "" d

end NearClone.Document
