/-!
Statements as a language front-end supplies them: a coarse shape for alignment, a kind, and the
sub-expressions that may become parameters.
-/

set_option autoImplicit false
set_option relaxedAutoImplicit false

namespace NearClone

/-- Kinds of sub-expressions that may become parameters. -/
inductive SlotKind where
  | literal
  | identifier
  | type
  | other
  deriving DecidableEq, Repr

namespace SlotKind

/-- The written name of a kind. -/
def name : SlotKind → String
  | literal => "literal"
  | identifier => "identifier"
  | type => "type"
  | other => "other"

/-- All kinds. -/
def all : List SlotKind := [literal, identifier, type, other]

/-- The kind with a given name. -/
def ofName? (s : String) : Option SlotKind := all.find? fun k ↦ k.name = s

@[simp]
theorem ofName?_name (k : SlotKind) : ofName? k.name = some k := by
  cases k <;> rfl

end SlotKind

/-- A sub-expression of a statement. -/
structure Slot where
  kind : SlotKind
  text : String
  deriving DecidableEq, Repr

namespace Slot

/-- By the name of the kind, then by text. -/
def compare : Slot → Slot → Ordering :=
  compareLex (compareOn (·.kind.name)) (compareOn (·.text))

end Slot

/-- One statement. `shape` is the token used for alignment; `treeShape`, when given, also encodes
the blocks nested inside. -/
structure Statement where
  shape : String
  kind : String
  text : String := ""
  treeShape : Option String := none
  slots : List Slot := []
  deriving DecidableEq, Repr

namespace Statement

/-- The kinds of statements that direct the flow of control. -/
def controlFlowKinds : List String :=
  ["if", "while", "for", "foreach", "do", "switch", "try", "synchronized", "break", "continue",
   "return", "throw", "yield"]

/-- The nested shape if it is given, the coarse one otherwise. -/
def fineShape (s : Statement) : String := s.treeShape.getD s.shape

/-- Whether the statement directs the flow of control. -/
def isControlFlow (s : Statement) : Bool := controlFlowKinds.contains s.kind

/-- Whether control would flow differently: one of the two directs it, and the kinds differ. -/
def divertsFrom (s t : Statement) : Bool :=
  (s.isControlFlow || t.isControlFlow) && s.kind ≠ t.kind

/-- By shape, fine shape, kind and text, then by slots. -/
def compare : Statement → Statement → Ordering :=
  compareLex (compareOn (·.shape)) <| compareLex (compareOn (·.fineShape)) <|
    compareLex (compareOn (·.kind)) <| compareLex (compareOn (·.text))
      fun s t ↦ List.compareLex Slot.compare s.slots t.slots

/-- Lists of statements in lexicographic order; a list comes after its own beginnings. -/
def compareLists : List Statement → List Statement → Ordering := List.compareLex compare

theorem divertsFrom_comm (s t : Statement) : s.divertsFrom t = t.divertsFrom s := by
  simp only [divertsFrom, Bool.or_comm]
  congr 1
  simp [eq_comm]

end Statement

end NearClone
