import NearClone.Listing.Assigned
import NearClone.Number.Numeral

/-!
Structured documents: what requests, settings and reports are exchanged as. Integers of any size
and other numbers are kept apart, and an object keeps the order of its fields.
-/

set_option autoImplicit false
set_option relaxedAutoImplicit false

namespace NearClone

/-- A document over numbers of type `α`. -/
inductive Document (α : Type) where
  | null
  | flag (value : Bool)
  | int (value : Int)
  | number (value : α)
  | text (value : String)
  | list (items : List (Document α))
  | object (fields : List (String × Document α))
  deriving Inhabited

namespace Document

variable {α : Type}

/-- The object made by setting fields one after the other. -/
def ofFields (fields : List (String × Document α)) : Document α :=
  object (Listing.assignAll fields)

/-- The value of a field of an object. -/
def get? (d : Document α) (name : String) : Option (Document α) :=
  match d with
  | object fields => fields.lookup name
  | _ => none

/-- A text, or the null document for an absent one. -/
def ofText? (value : Option String) : Document α := value.elim null text

/-- A list of texts. -/
def texts (values : List String) : Document α := list (values.map text)

mutual

/-- Whether all numbers in a document are finite. -/
def isFinite [Numeral α] : Document α → Bool
  | number x => Numeral.isFinite x
  | list items => allFinite items
  | object fields => fieldsFinite fields
  | _ => true

/-- Whether all numbers in a list of documents are finite. -/
def allFinite [Numeral α] : List (Document α) → Bool
  | [] => true
  | item :: rest => isFinite item && allFinite rest

/-- Whether all numbers in the fields of an object are finite. -/
def fieldsFinite [Numeral α] : List (String × Document α) → Bool
  | [] => true
  | (_, value) :: rest => isFinite value && fieldsFinite rest

end

/-- A natural as a document. -/
def nat (value : Nat) : Document α := int value

end Document

end NearClone
