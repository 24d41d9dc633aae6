import NearClone.Number.Quantity

/-!
Clocks and deadlines. A clock is the sequence of its readings, and whoever reads it keeps count.
-/

set_option autoImplicit false
set_option relaxedAutoImplicit false

namespace NearClone

/-- The reading at every count, from zero on. -/
abbrev Clock (α : Type) := Nat → Quantity α

namespace Clock

variable {α : Type} [Scalar α]

/-- A clock that stands still. -/
def stopped : Clock α := fun _ ↦ .int 0

/-- A clock that goes on by the same step at every reading. -/
def steady (step : Quantity α) : Clock α
  | 0 => .int 0
  | n + 1 => (steady step n).add step

end Clock

/-- A clock with the reading after which work stops. -/
structure Watch (α : Type) where
  clock : Clock α
  deadline : Option (Quantity α)

namespace Watch

variable {α : Type} [Scalar α]

/-- Whether the deadline has passed, and the new count. Without a deadline the clock is not read. -/
def check (w : Watch α) (reads : Nat) : Bool × Nat :=
  match w.deadline with
  | none => (false, reads)
  | some deadline => (deadline.isLess (w.clock reads), reads + 1)

/-- The watch for a time budget that starts now, and the new count. -/
def start (clock : Clock α) (budget : Option α) (reads : Nat) : Watch α × Nat :=
  match budget with
  | none => (⟨clock, none⟩, reads)
  | some budget => (⟨clock, some ((clock reads).add (.real budget))⟩, reads + 1)

end Watch

end NearClone
