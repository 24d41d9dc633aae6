import NearClone.Config.Scope
import NearClone.Config.Weights

/-!
What a survey for clones is configured by.
-/

set_option autoImplicit false
set_option relaxedAutoImplicit false

namespace NearClone

/-- The configuration of a survey. -/
structure Config (α : Type) where
  /-- The least number of statements of a fragment that is looked at. -/
  minLines : Int
  /-- The least overall score of a clone pair. -/
  threshold : α
  weights : Weights α
  /-- Widens the scope to the project, whatever `scope` says. -/
  crossFile : Bool
  scope : Scope
  highConfidence : α
  mediumConfidence : α
  /-- Lines that a call takes up in place of a clone. -/
  callOverhead : Int
  /-- How many files may be looked at side by side; never changes an answer. -/
  maxWorkers : Int
  /-- Seconds after which no more pairs are compared. -/
  timeBudget : Option α
  deriving DecidableEq, Repr

namespace Config

variable {α : Type} [Scalar α]

/-- The configuration where nothing is asked for. -/
def default : Config α where
  minLines := 5
  threshold := 0.75
  weights := Weights.balanced
  crossFile := false
  scope := .file
  highConfidence := 0.90
  mediumConfidence := 0.75
  callOverhead := 1
  maxWorkers := 4
  timeBudget := none

/-- The scope in force. -/
def effectiveScope (c : Config α) : Scope := if c.crossFile then .project else c.scope

end Config

end NearClone
