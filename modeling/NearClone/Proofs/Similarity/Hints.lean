import NearClone.Proofs.Listing.Assigned
import NearClone.Similarity
import Mathlib.Logic.Function.Basic

/-!
# Declared types as look-ups

A list of names with types says of a name what a look-up finds. So the order of the list says
nothing where every name has one entry (`agrees_of_perm`). Variations are typed alike under lists
that say the same (`ofVariations_congr`), and so fragments compare alike that differ in nothing but
the way in which their declared types are written (`compare_congr`). One way of writing can be
chosen for all lists that say the same (`exists_write`).
-/

set_option autoImplicit false
set_option relaxedAutoImplicit false

namespace NearClone

namespace Typing

section Lookups

variable {left left' right right' : Hints}
  (hleft : ∀ name, left.lookup name = left'.lookup name)
  (hright : ∀ name, right.lookup name = right'.lookup name)

include hleft hright

/-- Whether two sides have a common type is a matter of look-ups. -/
theorem unify_congr (v : Variation) : unify left right v = unify left' right' v := by
  rw [unify, unify, hleft, hright]

/-- What is warned about is a matter of look-ups. -/
theorem warningsOf_congr (flagged : Bool) (vs : List Variation) :
    warningsOf left right flagged vs = warningsOf left' right' flagged vs := by
  induction vs generalizing flagged with
  | nil => rfl
  | cons v vs ih => simp only [warningsOf, unify_congr hleft hright, ih]

/-- The typing of variations is a matter of look-ups. -/
theorem ofVariations_congr (vs : List Variation) :
    ofVariations left right vs = ofVariations left' right' vs := by
  simp only [ofVariations, unify_congr hleft hright, warningsOf_congr hleft hright]

end Lookups

end Typing

/-- Every list of declared types is written so that every name keeps its type. -/
def Hints.Faithful (write : Hints → Hints) : Prop :=
  ∀ (hints : Hints) (name : String), (write hints).lookup name = hints.lookup name

/-- All lists that say the same can be written in one way. -/
theorem Hints.exists_write : ∃ write, Faithful write ∧ ∀ {hints hints' : Hints},
    (∀ name, hints.lookup name = hints'.lookup name) → write hints = write hints' := by
  let meaning : Hints → String → Option String := fun hints name ↦ hints.lookup name
  refine ⟨fun hints ↦ Function.invFun meaning (meaning hints), fun hints name ↦ ?_, fun h ↦ ?_⟩
  · have hsame : meaning (Function.invFun meaning (meaning hints)) = meaning hints :=
      Function.invFun_eq ⟨hints, rfl⟩
    exact congrFun hsame name
  · exact congrArg (Function.invFun meaning) (funext h)

namespace Fragment

/-- The two fragments differ at most in the way in which their declared types are written. -/
structure Agrees (f g : Fragment) : Prop where
  statements : f.statements = g.statements
  location : f.location = g.location
  method : f.method = g.method
  owner : f.owner = g.owner
  hints : ∀ name, f.hints.lookup name = g.hints.lookup name

namespace Agrees

variable {f g : Fragment}

theorem length_eq (h : f.Agrees g) : f.length = g.length := congrArg List.length h.statements

theorem shapes_eq (h : f.Agrees g) : f.shapes = g.shapes :=
  congrArg (List.map Statement.shape) h.statements

end Agrees

/-- Where every name has one entry, the entries can stand in any order. -/
theorem agrees_of_perm {f : Fragment} {hints : Hints} (h : hints.Perm f.hints)
    (hnames : (f.hints.map Prod.fst).Nodup) : Agrees { f with hints } f :=
  ⟨rfl, rfl, rfl, rfl, Listing.lookup_perm h hnames⟩

/-- A fragment with its declared types written in another way. -/
def redeclare (write : Hints → Hints) (f : Fragment) : Fragment :=
  { f with hints := write f.hints }

variable {write : Hints → Hints}

/-- Nothing else changes, as long as every name keeps its type. -/
theorem agrees_redeclare (h : Hints.Faithful write) (f : Fragment) :
    (f.redeclare write).Agrees f :=
  ⟨rfl, rfl, rfl, rfl, h f.hints⟩

/-- Fragments that agree become the same where their declared types are written in one way. -/
theorem Agrees.redeclare_eq {f g : Fragment} (h : f.Agrees g)
    (hwrite : write f.hints = write g.hints) : f.redeclare write = g.redeclare write := by
  rw [redeclare, redeclare, hwrite, h.statements, h.location, h.method, h.owner]

end Fragment

/-- Fragments that agree compare alike. -/
theorem Similarity.compare_congr {α : Type} [Scalar α] (weights : Weights α)
    {f f' g g' : Fragment} (hf : f.Agrees f') (hg : g.Agrees g') :
    compare weights f g = compare weights f' g' := by
  have htyping : Typing.ofVariations f.hints g.hints = Typing.ofVariations f'.hints g'.hints :=
    funext (Typing.ofVariations_congr hf.hints hg.hints)
  rw [compare, compare, hf.length_eq, hg.length_eq, hf.shapes_eq, hg.shapes_eq, hf.statements,
    hg.statements, htyping]

end NearClone
