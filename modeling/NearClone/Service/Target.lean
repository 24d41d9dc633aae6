import NearClone.Document.Printer
import NearClone.Document.Reader

/-!
Targets of calls. A target names a path, perhaps behind a scheme and a host and in front of a query,
and the same path can be spelled in more than one way.
-/

set_option autoImplicit false
set_option relaxedAutoImplicit false

namespace NearClone.Service

/-- The part of a target in front of its query or fragment. -/
def withoutQuery (cs : List Char) : List Char := cs.takeWhile fun c ↦ c ≠ '?' && c ≠ '#'

/-- The part of a target behind its scheme, a word with a colon. -/
def withoutScheme (cs : List Char) : List Char :=
  let isSchemeChar : Char → Bool := fun c ↦ c.isAlphanum || c = '+' || c = '-' || c = '.'
  match (cs.takeWhile isSchemeChar).head?, cs.dropWhile isSchemeChar with
  | some c, ':' :: rest => if c.isAlpha then rest else cs
  | _, _ => cs

/-- The part of a target behind the host that follows two slashes. -/
def withoutHost : List Char → List Char
  | '/' :: '/' :: rest => rest.dropWhile (· ≠ '/')
  | cs => cs

/-- One segment of a path after those before it, the last one first. A dot stays where it is and two
dots go back. -/
def enter (done : List (List Char)) (segment : List Char) : List (List Char) :=
  if segment = ['.'] then done
  else if segment = ['.', '.'] then (if done = [[]] then done else done.drop 1)
  else segment :: done

/-- A path without dots for segments. -/
def resolve (cs : List Char) : List Char :=
  ['/'].intercalate ((Text.pieces (· = '/') cs).foldl enter []).reverse

/-- Replaces a percent sign and two hexadecimal digits by the character that they stand for. -/
def unescape : List Char → List Char
  | '%' :: a :: b :: rest =>
    match Document.hexDigit? a, Document.hexDigit? b with
    | some high, some low => Char.ofNat (16 * high + low) :: unescape rest
    | _, _ => '%' :: unescape (a :: b :: rest)
  | c :: rest => c :: unescape rest
  | [] => []

/-- Removes all slashes at the end. -/
def withoutSlashes (cs : List Char) : List Char := (cs.reverse.dropWhile (· = '/')).reverse

/-- Removes one line end at the end. -/
def withoutLineEnd (cs : List Char) : List Char :=
  if cs.getLast? = some '\n' then cs.dropLast else cs

/-- The path of a target. It starts with one slash, and slashes at its end do not count, nor does a
line end. Escapes may be escaped once more. -/
def pathOf (target : String) : String :=
  let path := (withoutHost (withoutScheme (withoutQuery target.toList))).dropWhile (· = '/')
  let plain := unescape (unescape (resolve ('/' :: path)))
  String.ofList (withoutLineEnd (withoutSlashes plain))

/-- What can be wrong with a target. -/
inductive TargetFlaw where
  | control (char : Char) (place : Nat)
  | leadingSlashes
  | leadingColon
  deriving DecidableEq, Repr

namespace TargetFlaw

/-- A control character by its escape. -/
def escape (c : Char) : String :=
  if c = '\n' then "\\n"
  else if c = '\t' then "\\t"
  else if c = '\r' then "\\r"
  else "\\x" ++ String.ofList ((Document.unitDigits c.toNat).toList.drop 2)

/-- The message of a flaw. -/
def message : TargetFlaw → String
  | control c place =>
    s!"Invalid non-printable ASCII character in URL, '{escape c}' at position {place}."
  | leadingSlashes => "Relative URLs cannot have a path starting with '//'"
  | leadingColon => "Relative URLs cannot have a path starting with ':'"

end TargetFlaw

/-- Whether a character must not stand in a target. -/
def isControl (c : Char) : Bool := c.toNat < 0x20 || c.toNat = 0x7F

/-- What is wrong with a target: it holds a control character, its path follows an empty host with
two slashes, or it starts with a colon. -/
def targetFlaw? (target : String) : Option TargetFlaw :=
  let cs := target.toList
  match cs.find? isControl with
  | some c => some (.control c (cs.idxOf c))
  | none =>
    match cs with
    | '/' :: '/' :: '/' :: '/' :: _ => some .leadingSlashes
    | ':' :: _ => some .leadingColon
    | _ => none

end NearClone.Service
