/-!
How far apart two fragments may be and still be compared.
-/

set_option autoImplicit false
set_option relaxedAutoImplicit false

namespace NearClone

/-- Scopes from the narrowest to the widest. -/
inductive Scope where
  | method
  | classBody
  | file
  | project
  deriving DecidableEq, Repr

namespace Scope

/-- The written name of a scope. -/
def name : Scope → String
  | method => "method"
  | classBody => "class"
  | file => "file"
  | project => "project"

/-- All scopes. -/
def all : List Scope := [method, classBody, file, project]

/-- The scope with a given name. -/
def ofName? (s : String) : Option Scope := all.find? fun scope ↦ scope.name = s

@[simp]
theorem ofName?_name (s : Scope) : ofName? s.name = some s := by
  cases s <;> rfl

end Scope

end NearClone
