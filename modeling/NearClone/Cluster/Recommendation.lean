/-!
What can be done about a group of clones, and how sure that advice is.
-/

set_option autoImplicit false
set_option relaxedAutoImplicit false

namespace NearClone

/-- Ways to consolidate clones. -/
inductive Strategy where
  | extractMethod
  | utilityClass
  | manualReview
  deriving DecidableEq, Repr

namespace Strategy

/-- The written name of a strategy. -/
def name : Strategy → String
  | extractMethod => "extract_method"
  | utilityClass => "utility_class"
  | manualReview => "manual_review"

end Strategy

/-- Degrees of confidence, from the weakest to the strongest. -/
inductive Confidence where
  | low
  | medium
  | high
  deriving DecidableEq, Repr

namespace Confidence

/-- The written name of a degree. -/
def name : Confidence → String
  | low => "low"
  | medium => "medium"
  | high => "high"

/-- All degrees. -/
def all : List Confidence := [low, medium, high]

/-- The degree with a given name. -/
def ofName? (s : String) : Option Confidence := all.find? fun c ↦ c.name = s

/-- One degree weaker; the weakest stays. -/
def lowered : Confidence → Confidence
  | high => medium
  | _ => low

end Confidence

/-- Advice on a cluster. -/
structure Recommendation (α : Type) where
  strategy : Strategy
  confidence : Confidence
  score : α
  methodName : Option String := none
  reasons : List String := []
  deriving DecidableEq, Repr

namespace Recommendation

variable {α : Type}

/-- Whether the advice is as sure as it can be. -/
def isHighConfidence (r : Recommendation α) : Bool := r.confidence = .high

end Recommendation

end NearClone
