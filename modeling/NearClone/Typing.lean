import NearClone.Variation

/-!
Whether variations can become typed parameters. Literals are typed by their spelling and names by
declared types; a variation whose two sides cannot be unified gets the universal type. Only a
different flow of control rules a parameter out.
-/

set_option autoImplicit false
set_option relaxedAutoImplicit false

namespace NearClone

/-- Declared types of names. The first entry of a name counts. -/
abbrev Hints := List (String × String)

/-- The types of the parameters that variations become. -/
structure Typing where
  /-- No variation changes the flow of control. -/
  safe : Bool := true
  /-- The type of every variation that can be a parameter, with its ordinal. -/
  parameters : List (Nat × String) := []
  warnings : List String := []
  conflicts : List String := []
  deriving DecidableEq, Repr

namespace Typing

/-- The type that every value has. -/
def universal : String := "object"

/-- The warning about a different flow of control. -/
def flowWarning : String := "Control flow"

/-- The warning about two sides without a common type. -/
def fallbackWarning (v : Variation) : String :=
  s!"Could not unify types of '{v.left}' and '{v.right}'; using {universal}"

/-- The report of a different flow of control. -/
def conflict (v : Variation) : String :=
  s!"Control flow differs at statements {v.leftIndex}/{v.rightIndex}: {v.left} vs {v.right}"

/-- The type of two sides: the one they share, and the recorded one where neither side has any. An
empty record counts as none. -/
def agree (left right recorded : Option String) : Option String :=
  match left, right with
  | some a, some b => if a = b then some a else none
  | none, none => recorded.filter fun t ↦ !t.isEmpty
  | _, _ => none

/-- The type of a variation as a parameter, if its two sides can be unified. -/
def unify (left right : Hints) (v : Variation) : Option String :=
  if v.kind = .literal then
    agree ((Literal.typeOf? v.left).map (·.name)) ((Literal.typeOf? v.right).map (·.name))
      v.inferred
  else agree (left.lookup v.left) (right.lookup v.right) v.inferred

/-- The warnings of variations in order; `flagged` tells that the flow of control has already been
warned about. -/
def warningsOf (left right : Hints) : (flagged : Bool) → List Variation → List String
  | _, [] => []
  | flagged, v :: vs =>
    if v.kind = .controlFlow then
      if flagged then warningsOf left right true vs
      else flowWarning :: warningsOf left right true vs
    else if (unify left right v).isSome then warningsOf left right flagged vs
    else fallbackWarning v :: warningsOf left right flagged vs

/-- The typing of variations under declared types of either side. -/
def ofVariations (left right : Hints) (vs : List Variation) : Typing where
  safe := vs.all fun v ↦ v.kind ≠ .controlFlow
  parameters :=
    vs.zipIdx.filterMap fun (v, k) ↦
      if v.kind = .controlFlow then none else some (k, (unify left right v).getD universal)
  warnings := warningsOf left right false vs
  conflicts := (vs.filter fun v ↦ v.kind = .controlFlow).map conflict

/-- The typing of variations where declared types may be missing; the second side falls back on the
first. -/
def ofVariations? (left right : Option Hints) (vs : List Variation) : Typing :=
  let first := left.getD []
  ofVariations first (right.getD first) vs

end Typing

end NearClone
