import NearClone.Alignment.Basic
import NearClone.Listing.Place
import NearClone.Literal
import NearClone.Source.Statement

/-!
The differences between two aligned lists of statements: which of them could become a parameter, and
whether anything differs that no parameter can express.
-/

set_option autoImplicit false
set_option relaxedAutoImplicit false

namespace NearClone

/-- Kinds of differences between two aligned statements. -/
inductive VariationKind where
  | literal
  | identifier
  | controlFlow
  | type
  deriving DecidableEq, Repr

namespace VariationKind

/-- The written name of a kind. -/
def name : VariationKind → String
  | literal => "literal"
  | identifier => "identifier"
  | controlFlow => "control_flow"
  | type => "type"

/-- All kinds. -/
def all : List VariationKind := [literal, identifier, controlFlow, type]

/-- The kind with a given name. -/
def ofName? (s : String) : Option VariationKind := all.find? fun k ↦ k.name = s

/-- The kind of a difference between two slots: that of the slots if they agree on one that can be
typed, and otherwise that of an expression of unknown type. -/
def ofSlots : SlotKind → SlotKind → VariationKind
  | .literal, .literal => literal
  | .type, .type => type
  | _, _ => identifier

end VariationKind

/-- A difference between two aligned statements. `slot` counts the slots of a statement, and
`inferred` is the type that two literals share. -/
structure Variation where
  kind : VariationKind
  leftIndex : Int
  rightIndex : Int
  left : String
  right : String
  inferred : Option String := none
  slot : Int := 0
  deriving DecidableEq, Repr

/-- All differences between two lists of statements. -/
structure Differences where
  variations : List Variation := []
  /-- Something differs that is no variation: an unaligned statement, a substitution of another
  shape, or a different number of slots. -/
  mismatch : Bool := false
  deriving DecidableEq, Repr

/-- Two aligned statements with their positions. -/
structure AlignedPair where
  leftIndex : Int
  rightIndex : Int
  left : Statement
  right : Statement
  deriving DecidableEq, Repr

namespace AlignedPair

/-- Whether control would flow differently. -/
def diverts (p : AlignedPair) : Bool := p.left.divertsFrom p.right

/-- The difference between the slots at one place, if their texts differ. -/
def slotVariation? (p : AlignedPair) (a b : Slot) (slot : Nat) : Option Variation :=
  if a.text = b.text then none
  else
    let kind := VariationKind.ofSlots a.kind b.kind
    some
      { kind
        leftIndex := p.leftIndex
        rightIndex := p.rightIndex
        left := a.text
        right := b.text
        inferred :=
          if kind = .literal then (Literal.commonType? a.text b.text).map (·.name) else none
        slot }

/-- The differences between slots at the same place, up to the end of the shorter list. -/
def slotVariations (p : AlignedPair) : List Variation :=
  (p.left.slots.zip p.right.slots).zipIdx.filterMap fun ((a, b), slot) ↦ p.slotVariation? a b slot

/-- The difference in the flow of control. -/
def flowVariation (p : AlignedPair) : Variation where
  kind := .controlFlow
  leftIndex := p.leftIndex
  rightIndex := p.rightIndex
  left := p.left.kind
  right := p.right.kind

/-- The variations at a pair. A different flow of control hides all others, and statements of
different shape have none. -/
def variations (p : AlignedPair) : List Variation :=
  if p.diverts then [p.flowVariation]
  else if p.left.shape = p.right.shape then p.slotVariations
  else []

/-- Whether the pair differs in a way that no variation expresses. -/
def mismatches (p : AlignedPair) : Bool :=
  !p.diverts && (p.left.shape ≠ p.right.shape || p.left.slots.length ≠ p.right.slots.length)

end AlignedPair

/-- The aligned statements of an alignment in ascending order; a pair outside the lists is left
out. -/
def Alignment.pairsOf (a : Alignment) (ss ts : List Statement) : List AlignedPair :=
  a.aligned.filterMap fun (i, j) ↦ do
    let s ← ss[i]?
    let t ← ts[j]?
    return ⟨i, j, s, t⟩

namespace Differences

/-- The differences at pairs of statements. Statements without a partner are a mismatch. -/
def ofPairs (unpaired : Bool) (pairs : List AlignedPair) : Differences where
  variations := pairs.flatMap AlignedPair.variations
  mismatch := unpaired || pairs.any AlignedPair.mismatches

/-- The differences between two lists of statements along an alignment. -/
def along (ss ts : List Statement) (a : Alignment) : Differences :=
  ofPairs (!a.leftOnly.isEmpty || !a.rightOnly.isEmpty) (a.pairsOf ss ts)

/-- Pairs of places by the first component, then by the second. -/
def comparePlaces : Int × Int → Int × Int → Ordering :=
  compareLex (compareOn (·.1)) (compareOn (·.2))

/-- The statements at a pair of places. -/
def pairAt (ss ts : List Statement) (place : Int × Int) : Except Listing.PlaceFlaw AlignedPair := do
  let s ← Listing.fetch ss place.1
  let t ← Listing.fetch ts place.2
  return ⟨place.1, place.2, s, t⟩

/-- The differences at given pairs of places, in ascending order of places. The first place without
a statement spoils them all. -/
def atPlaces (ss ts : List Statement) (places : List (Int × Int)) (unpaired : Bool) :
    Except Listing.PlaceFlaw Differences :=
  ((Listing.sortBy comparePlaces places).mapM (pairAt ss ts)).map (ofPairs unpaired)

/-- The number of variations of one kind. -/
def count (d : Differences) (kind : VariationKind) : Nat :=
  d.variations.countP fun v ↦ v.kind = kind

/-- Whether a variation changes the flow of control. -/
def hasControlFlow (d : Differences) : Bool := 0 < d.count .controlFlow

end Differences

end NearClone
