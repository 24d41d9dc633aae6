import NearClone.Document.Basic
import NearClone.Number.IntegerText
import NearClone.Text.Encoding

/-!
Reading a document from text. A text that is no document is refused together with what remains of
it at the point of the fault, so that the place of the fault is a matter of counting. Reading also
stops at an integer with too many digits and at lists and objects that are nested too deeply.
-/

set_option autoImplicit false
set_option relaxedAutoImplicit false

namespace NearClone.Document

/-- Why reading stops: a fault, with the text from there on, or something that is too large. -/
inductive Stop where
  | fault (rest : List Char)
  | excess
  deriving DecidableEq, Repr

/-- A read value with the text after it, or why there is none. -/
abbrev Read (β : Type) := Except Stop (β × List Char)

/-- Lists and objects are nested to this depth at most. -/
def nestingLimit : Nat := 950

/-- Characters that may stand between the parts of a document. -/
def isGap (c : Char) : Bool := c = ' ' || c = '\t' || c = '\n' || c = '\r'

/-- The text from the next part on. -/
def skipGap (cs : List Char) : List Char := cs.dropWhile isGap

/-- The value of a hexadecimal digit. -/
def hexDigit? (c : Char) : Option Nat :=
  if '0' ≤ c ∧ c ≤ '9' then some (c.toNat - 48)
  else if 'a' ≤ c ∧ c ≤ 'f' then some (c.toNat - 87)
  else if 'A' ≤ c ∧ c ≤ 'F' then some (c.toNat - 55)
  else none

/-- The sixteen-bit unit that four hexadecimal digits name. -/
def unit? (a b c d : Char) : Option Nat := do
  return ((← hexDigit? a) * 4096 + (← hexDigit? b) * 256 + (← hexDigit? c) * 16 + (← hexDigit? d))

/-- The character behind a backslash, for the escapes of one letter. -/
def escaped? : Char → Option Char
  | '"' => some '"'
  | '\\' => some '\\'
  | '/' => some '/'
  | 'b' => some (Char.ofNat 8)
  | 'f' => some (Char.ofNat 12)
  | 'n' => some '\n'
  | 'r' => some '\r'
  | 't' => some '\t'
  | _ => none

/-- Reads the inside of a quoted text up to its closing quote. `start` is the text from the opening
quote on, and `done` holds the characters read so far, the last one first. -/
def readQuoted (start : List Char) : List Char → List Char → Read String
  | _, [] => .error (.fault start)
  | done, '"' :: rest => .ok (String.ofList done.reverse, rest)
  | done, '\\' :: 'u' :: a :: b :: c :: d :: '\\' :: 'u' :: e :: f :: g :: h :: next :: rest =>
    match unit? a b c d with
    | none =>
      .error (.fault ('u' :: a :: b :: c :: d :: '\\' :: 'u' :: e :: f :: g :: h :: next :: rest))
    | some high =>
      match (unit? e f g h).bind (Text.pairedChar? high) with
      | some char => readQuoted start (char :: done) (next :: rest)
      | none =>
        readQuoted start (Text.singleChar high :: done)
          ('\\' :: 'u' :: e :: f :: g :: h :: next :: rest)
  | done, '\\' :: 'u' :: a :: b :: c :: d :: next :: rest =>
    match unit? a b c d with
    | none => .error (.fault ('u' :: a :: b :: c :: d :: next :: rest))
    | some unit => readQuoted start (Text.singleChar unit :: done) (next :: rest)
  | _, '\\' :: 'u' :: rest => .error (.fault ('u' :: rest))
  | _, '\\' :: [] => .error (.fault start)
  | done, '\\' :: letter :: rest =>
    match escaped? letter with
    | none => .error (.fault ('\\' :: letter :: rest))
    | some char => readQuoted start (char :: done) rest
  | done, c :: rest =>
    if c.toNat < 0x20 then .error (.fault (c :: rest)) else readQuoted start (c :: done) rest

/-- The digits after a point, and the text after them; none unless a digit follows the point. -/
def fraction? : List Char → Option (List Char × List Char)
  | '.' :: rest =>
    let digits := rest.takeWhile Char.isDigit
    if digits.isEmpty then none else some (digits, rest.dropWhile Char.isDigit)
  | _ => none

/-- An exponent, and the text after it; none unless it has a digit. -/
def power? : List Char → Option (Int × List Char)
  | mark :: rest =>
    if mark = 'e' || mark = 'E' then
      let (negative, body) := Numeral.splitSign rest
      let digits := body.takeWhile Char.isDigit
      if digits.isEmpty then none
      else
        let n : Int := Text.digitsValue digits
        some (if negative then -n else n, body.dropWhile Char.isDigit)
    else none
  | [] => none

variable {α : Type} [Numeral α]

/-- Reads a number. With neither fraction nor exponent it is an integer. -/
def readNumber (cs : List Char) : Read (Document α) :=
  let (negative, body) : Bool × List Char :=
    match cs with
    | '-' :: rest => (true, rest)
    | rest => (false, rest)
  let (whole, rest) : List Char × List Char :=
    match body with
    | '0' :: rest => (['0'], rest)
    | rest => (rest.takeWhile Char.isDigit, rest.dropWhile Char.isDigit)
  if whole.isEmpty then .error (.fault cs)
  else
    let (digits, rest, isInt) : List Char × List Char × Bool :=
      match fraction? rest with
      | some (digits, rest) => (digits, rest, false)
      | none => ([], rest, true)
    let (power, rest, isInt) : Int × List Char × Bool :=
      match power? rest with
      | some (power, rest) => (power, rest, false)
      | none => (0, rest, isInt)
    if isInt && Number.digitLimit < whole.length then .error .excess
    else
      let value := Text.digitsValue (whole ++ digits)
      if isInt then .ok (int (if negative then -(value : Int) else value), rest)
      else .ok (number (Numeral.ofDecimal negative value (power - digits.length)), rest)

/-- The number that a word names, with the text after the word. -/
def readWord (negative : Bool) (word : String) (cs rest : List Char) : Read (Document α) :=
  match Numeral.ofWord? negative word with
  | some x => .ok (number x, rest)
  | none => .error (.fault cs)

mutual

/-- Reads one document; `depth` is the number of levels that may still be opened. -/
def readValue : Nat → Nat → List Char → Read (Document α)
  | 0, _, cs => .error (.fault cs)
  | fuel + 1, depth, cs =>
    match cs with
    | '"' :: rest =>
      match readQuoted cs [] rest with
      | .ok (s, rest) => .ok (text s, rest)
      | .error stop => .error stop
    | '{' :: rest =>
      match depth, skipGap rest with
      | 0, _ => .error .excess
      | _ + 1, '}' :: rest => .ok (object [], rest)
      | depth + 1, rest => readFields fuel depth [] rest
    | '[' :: rest =>
      match depth, skipGap rest with
      | 0, _ => .error .excess
      | _ + 1, ']' :: rest => .ok (list [], rest)
      | depth + 1, rest => readItems fuel depth [] rest
    | 'n' :: 'u' :: 'l' :: 'l' :: rest => .ok (null, rest)
    | 't' :: 'r' :: 'u' :: 'e' :: rest => .ok (flag true, rest)
    | 'f' :: 'a' :: 'l' :: 's' :: 'e' :: rest => .ok (flag false, rest)
    | 'N' :: 'a' :: 'N' :: rest => readWord false "nan" cs rest
    | 'I' :: 'n' :: 'f' :: 'i' :: 'n' :: 'i' :: 't' :: 'y' :: rest =>
      readWord false "infinity" cs rest
    | '-' :: 'I' :: 'n' :: 'f' :: 'i' :: 'n' :: 'i' :: 't' :: 'y' :: rest =>
      readWord true "infinity" cs rest
    | _ => readNumber cs

/-- Reads the items of a list up to its closing bracket; `done` holds earlier ones, the last one
first. -/
def readItems : Nat → Nat → List (Document α) → List Char → Read (Document α)
  | 0, _, _, cs => .error (.fault cs)
  | fuel + 1, depth, done, cs =>
    match readValue fuel depth cs with
    | .error stop => .error stop
    | .ok (item, rest) =>
      match skipGap rest with
      | ']' :: rest => .ok (list (item :: done).reverse, rest)
      | ',' :: rest => readItems fuel depth (item :: done) (skipGap rest)
      | rest => .error (.fault rest)

/-- Reads the fields of an object up to its closing brace; `done` holds earlier ones, the last one
first. -/
def readFields : Nat → Nat → List (String × Document α) → List Char → Read (Document α)
  | 0, _, _, cs => .error (.fault cs)
  | fuel + 1, depth, done, cs =>
    match cs with
    | '"' :: rest =>
      match readQuoted cs [] rest with
      | .error stop => .error stop
      | .ok (name, rest) =>
        match skipGap rest with
        | ':' :: rest =>
          match readValue fuel depth (skipGap rest) with
          | .error stop => .error stop
          | .ok (value, rest) =>
            match skipGap rest with
            | '}' :: rest => .ok (ofFields ((name, value) :: done).reverse, rest)
            | ',' :: rest => readFields fuel depth ((name, value) :: done) (skipGap rest)
            | rest => .error (.fault rest)
        | rest => .error (.fault rest)
    | _ => .error (.fault cs)

end

/-- Why a text is not read as a document: a fault behind so many characters, or something that is
too large. -/
inductive Refusal where
  | malformed (offset : Nat)
  | excessive
  deriving DecidableEq, Repr

/-- Reads a whole text as one document. -/
def parse (s : String) : Except Refusal (Document α) :=
  let cs := s.toList
  let total := cs.length
  match readValue (2 * total + 2) nestingLimit (skipGap cs) with
  | .error .excess => .error .excessive
  | .error (.fault rest) => .error (.malformed (total - rest.length))
  | .ok (value, rest) =>
    let rest := skipGap rest
    if rest.isEmpty then .ok value else .error (.malformed (total - rest.length))

end NearClone.Document
