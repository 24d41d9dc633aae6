import NearClone.Form.Checked
import NearClone.Number.IntegerText
import NearClone.Number.Word

/-!
Reading plain values from documents. Numbers, flags and their written forms stand for each other
where nothing is lost.
-/

set_option autoImplicit false
set_option relaxedAutoImplicit false

namespace NearClone.Form

variable {α β : Type} [Numeral α]

/-- Reads a value from a document. -/
abbrev Reading (α : Type) (β : Type) := Document α → Checked α β

/-- Integers of this size or more have no nearest finite number. -/
def numberBound : Nat := Nat.pow 2 1024 - Nat.pow 2 970

/-- An integer: itself, a number without fraction, a flag, or the text of an integer. -/
def integer : Reading α Int
  | .int n => .ok n
  | .number x =>
    match Numeral.toInt? x with
    | none => .fault (if Numeral.isFinite x then .fractional else .notFinite)
    | some n => if n.natAbs < Number.wordBound then .ok n else .fault .oversized
  | .flag b => .ok (if b then 1 else 0)
  | .text s =>
    match Number.integerOfText s with
    | .ok n => .ok n
    | .error .malformed => .fault .notIntegerText
    | .error .oversized => .fault .oversized
  | _ => .fault .notInteger

/-- A number: itself, an integer, a flag, or the text of a number. -/
def real : Reading α α
  | .number x => .ok x
  | .int n => if n.natAbs < numberBound then .ok (Scalar.ofInt n) else .fault .notNumber
  | .flag b => .ok (Scalar.ofInt (if b then 1 else 0))
  | .text s =>
    match Numeral.ofText? s with
    | some x => .ok x
    | none => .fault .notNumberText
  | _ => .fault .notNumber

/-- The words for yes. -/
def yesWords : List String := ["1", "on", "t", "true", "y", "yes"]

/-- The words for no. -/
def noWords : List String := ["0", "off", "f", "false", "n", "no"]

/-- The flag that an integer stands for. -/
def flagOfInt (n : Int) : Checked α Bool :=
  if n = 1 then .ok true
  else if n = 0 then .ok false
  else .fault .notFlagText

/-- A flag: itself, zero or one, or a word for yes or no. An integer that does not fit into a word,
and a number that could not be an integer, are of the wrong kind altogether. -/
def flag : Reading α Bool
  | .flag b => .ok b
  | .int n =>
    if Number.fitsWord n then flagOfInt n else .fault .notFlag
  | .number x =>
    match Numeral.toInt? x with
    | some n => if n.natAbs < Number.wordBound then flagOfInt n else .fault .notFlag
    | none => .fault .notFlag
  | .text s =>
    let word := s.toLower
    if yesWords.contains word then .ok true
    else if noWords.contains word then .ok false
    else .fault .notFlagText
  | _ => .fault .notFlag

/-- A text. -/
def text : Reading α String
  | .text s => .ok s
  | _ => .fault .notText

/-- One of several named values. -/
def choice (names : List String) (ofName? : String → Option β) : Reading α β
  | .text s =>
    match ofName? s with
    | some value => .ok value
    | none => .fault (.notChoice names)
  | _ => .fault (.notChoice names)

/-- A value that may be null. -/
def nullable (r : Reading α β) : Reading α (Option β)
  | .null => .ok none
  | d => (r d).map some

/-- A list of values. -/
def list (r : Reading α β) : Reading α (List β)
  | .list items =>
    Checked.all (items.zipIdx.map fun (d, index) ↦ (r d).under (.item index))
  | _ => .fault .notList

/-- A value for every name. -/
def mapping (r : Reading α β) : Reading α (List (String × β))
  | .object fields =>
    Checked.all (fields.map fun (name, d) ↦
      ((r d).map fun value ↦ (name, value)).under (.field name))
  | _ => .fault .notMapping

/-- A form with fields of its own; `refusal` is told of any other document. -/
def form (refusal : Cause α) (r : List (String × Document α) → Checked α β) : Reading α β
  | .object fields => r fields
  | _ => .fault refusal

/-- A field that must be given. -/
def required (fields : List (String × Document α)) (name : String) (r : Reading α β) :
    Checked α β :=
  match fields.lookup name with
  | some d => (r d).under (.field name)
  | none => (Checked.fault .missing).under (.field name)

/-- A field with a value for the case that it is not given. -/
def orElse (fields : List (String × Document α)) (name : String) (default : β) (r : Reading α β) :
    Checked α β :=
  match fields.lookup name with
  | some d => (r d).under (.field name)
  | none => .ok default

/-- An integer of at least a given size. -/
def integerFrom (least : Nat) : Reading α Int := fun d ↦
  (integer d).refine fun n ↦
    if (least : Int) ≤ n then .ok n else .fault (.below least (.int n))

/-- A number from zero to one. -/
def share : Reading α α := fun d ↦
  (real d).refine fun x ↦
    if x ≤ Scalar.ofInt 1 then
      if Scalar.ofInt 0 ≤ x then .ok x else .fault (.below 0 (.real x))
    else .fault (.above 1 (.real x))

/-- A number above zero. -/
def positive : Reading α α := fun d ↦
  (real d).refine fun x ↦
    if Scalar.ofInt 0 < x then .ok x else .fault (.notAbove 0 (.real x))

end NearClone.Form
