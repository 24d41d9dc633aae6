import NearClone.Document.Basic
import NearClone.Number.Quantity

/-!
What can be wrong with a document that is read as a form, and how that is told.
-/

set_option autoImplicit false
set_option relaxedAutoImplicit false

namespace NearClone

namespace Quantity

variable {α : Type} [Numeral α]

/-- A quantity as text. -/
def text : Quantity α → String
  | int n => toString n
  | real x => Numeral.shortest x

/-- The name of the type of a quantity. -/
def typeName : Quantity α → String
  | int _ => "int"
  | real _ => "float"

end Quantity

namespace Form

/-- A step into a document: a field of an object or an item of a list. -/
inductive Step where
  | field (name : String)
  | item (index : Nat)
  deriving DecidableEq, Repr

namespace Step

/-- A step as text. -/
def text : Step → String
  | field name => name
  | item index => toString index

/-- A step as a document. -/
def document {α : Type} : Step → Document α
  | field name => .text name
  | item index => .nat index

/-- The part of a document that a step leads to. -/
def into? {α : Type} : Step → Document α → Option (Document α)
  | field name, d => d.get? name
  | item index, .list items => items[index]?
  | item _, _ => none

end Step

/-- Causes of a fault. -/
inductive Cause (α : Type) where
  | missing
  | notInteger
  | notIntegerText
  | fractional
  | notFinite
  | oversized
  | notNumber
  | notNumberText
  | notFlag
  | notFlagText
  | notText
  | notChoice (names : List String)
  | notList
  | notMapping
  | notWeights
  | notForm
  | notDocument
  | below (least : Nat) (given : Quantity α)
  | above (most : Nat) (given : Quantity α)
  | notAbove (limit : Nat) (given : Quantity α)
  | weightSum (total : α)
  | confidenceOrder (medium high : α)
  deriving DecidableEq, Repr

namespace Cause

variable {α : Type} [Numeral α]

/-- The code of a cause. -/
def code : Cause α → String
  | missing => "missing"
  | notInteger => "int_type"
  | notIntegerText => "int_parsing"
  | fractional => "int_from_float"
  | notFinite => "finite_number"
  | oversized => "int_parsing_size"
  | notNumber => "float_type"
  | notNumberText => "float_parsing"
  | notFlag => "bool_type"
  | notFlagText => "bool_parsing"
  | notText => "string_type"
  | notChoice _ => "enum"
  | notList => "list_type"
  | notMapping => "dict_type"
  | notWeights => "model_type"
  | notForm => "model_attributes_type"
  | notDocument => "json_invalid"
  | below _ _ => "greater_than_equal"
  | above _ _ => "less_than_equal"
  | notAbove _ _ => "greater_than"
  | weightSum _ => "value_error"
  | confidenceOrder _ _ => "value_error"

/-- Quoted names in a row, with a word before the last one. -/
def choices : List String → String
  | [] => ""
  | [name] => s!"'{name}'"
  | [first, last] => s!"'{first}' or '{last}'"
  | name :: rest => s!"'{name}', " ++ choices rest

/-- The message of a cause. -/
def message : Cause α → String
  | missing => "Field required"
  | notInteger => "Input should be a valid integer"
  | notIntegerText => "Input should be a valid integer, unable to parse string as an integer"
  | fractional => "Input should be a valid integer, got a number with a fractional part"
  | notFinite => "Input should be a finite number"
  | oversized => "Unable to parse input string as an integer, exceeded maximum size"
  | notNumber => "Input should be a valid number"
  | notNumberText => "Input should be a valid number, unable to parse string as a number"
  | notFlag => "Input should be a valid boolean"
  | notFlagText => "Input should be a valid boolean, unable to interpret input"
  | notText => "Input should be a valid string"
  | notChoice names => "Input should be " ++ choices names
  | notList => "Input should be a valid list"
  | notMapping => "Input should be a valid dictionary"
  | notWeights => "Input should be a valid dictionary or instance of SimilarityWeights"
  | notForm => "Input should be a valid dictionary or object to extract fields from"
  | notDocument => "JSON decode error"
  | below least _ => s!"Input should be greater than or equal to {least}"
  | above most _ => s!"Input should be less than or equal to {most}"
  | notAbove limit _ => s!"Input should be greater than {limit}"
  | weightSum total =>
    "Value error, similarity weights must sum to 1, got " ++ Numeral.fixed 4 total
  | confidenceOrder medium high =>
    let m := Numeral.shortest medium
    let h := Numeral.shortest high
    s!"Value error, medium_confidence ({m}) must not exceed high_confidence ({h})"

/-- The number that a cause is about. -/
def given? : Cause α → Option (Quantity α)
  | below _ given => some given
  | above _ given => some given
  | notAbove _ given => some given
  | _ => none

end Cause

/-- A cause at a place. -/
structure Fault (α : Type) where
  cause : Cause α
  path : List Step := []
  deriving DecidableEq, Repr

namespace Fault

variable {α : Type} [Numeral α]

/-- A text of more than fifty characters by its first twenty-five and its last twenty-four. -/
def abbreviated (s : String) : String :=
  let cs := s.toList
  if cs.length ≤ 50 then s
  else String.ofList (cs.take 25) ++ "..." ++ String.ofList (cs.drop (cs.length - 24))

/-- The same fault, one step further out. -/
def within (step : Step) (f : Fault α) : Fault α := { f with path := step :: f.path }

/-- What a fault is about, in the document where it was found: the part at its place, or if there is
none, the smallest part around that place. -/
def subject : List Step → Document α → Document α
  | [], d => d
  | step :: path, d =>
    match step.into? d with
    | some part => subject path part
    | none => d

/-- A fault as a document. -/
def document (f : Fault α) : Document α :=
  .object
    [("type", .text f.cause.code),
     ("loc", .list (f.path.map Step.document)),
     ("msg", .text f.cause.message)]

/-- A fault in two lines of text. -/
def text (f : Fault α) : String :=
  let place := String.intercalate "." (f.path.map Step.text)
  let given :=
    match f.cause.given? with
    | some q => s!", input_value={abbreviated q.text}, input_type={q.typeName}"
    | none => ""
  s!"{place}\n  {f.cause.message} [type={f.cause.code}{given}]"

/-- Faults of a configuration as text, under a line that counts them. -/
def summary (faults : List (Fault α)) : String :=
  let noun := if faults.length = 1 then "error" else "errors"
  let head := s!"{faults.length} validation {noun} for DuplicationConfig"
  String.intercalate "\n" (head :: faults.map text)

end Fault

end Form

end NearClone
