import NearClone.Form.Fault

/-!
Values that have been checked, or all the faults that checking has found. Checks of different parts
do not stop at the first fault: their faults are gathered in order.
-/

set_option autoImplicit false
set_option relaxedAutoImplicit false

namespace NearClone.Form

/-- A value, or what is wrong with it. -/
inductive Checked (α : Type) (β : Type) where
  | ok (value : β)
  | faulty (faults : List (Fault α))

namespace Checked

variable {α β γ : Type}

/-- A single fault at the place itself. -/
def fault (cause : Cause α) : Checked α β := faulty [⟨cause, []⟩]

/-- Applies a function to a checked value. -/
def map (f : β → γ) : Checked α β → Checked α γ
  | ok value => ok (f value)
  | faulty faults => faulty faults

/-- Applies a checked function to a checked value, gathering the faults of both. -/
def app : Checked α (β → γ) → Checked α β → Checked α γ
  | ok f, ok value => ok (f value)
  | ok _, faulty faults => faulty faults
  | faulty faults, ok _ => faulty faults
  | faulty faults, faulty more => faulty (faults ++ more)

instance applicative : Applicative (Checked α) where
  pure := ok
  map := map
  seq f x := app f (x ())

/-- The same value or faults, one step further out. -/
def under (step : Step) : Checked α β → Checked α β
  | ok value => ok value
  | faulty faults => faulty (faults.map (Fault.within step))

/-- A further check of a value that has passed so far. -/
def refine (check : β → Checked α γ) : Checked α β → Checked α γ
  | ok value => check value
  | faulty faults => faulty faults

/-- The checked values of a list, with the faults of all. -/
def all : List (Checked α β) → Checked α (List β)
  | [] => ok []
  | x :: xs => app (map List.cons x) (all xs)

end Checked

end NearClone.Form
