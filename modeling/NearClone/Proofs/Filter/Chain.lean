import NearClone.Proofs.Filter.Bound

/-!
# Chains of filters

A chain of filters lets a pair pass if all of them do, so its answer depends on which filters it has
and not on their order. Where the filter by shapes is among them, the one by lengths only spares
work: a pair that shares enough shapes has lengths that are close enough, and chains that differ in
filters by length alone give the same answers (`admitsAll_eq_of_filter_eq`). No filter tells the two
fragments of a pair apart, and so no chain does (`admits_comm`, `admitsAll_comm`).
-/

set_option autoImplicit false
set_option relaxedAutoImplicit false

namespace NearClone

namespace Filter

open Listing

/-! ### Exchanged fragments -/

section Exchange

variable {α : Type} [Scalar α]

/-- Being within a scope does not depend on the order of two fragments. -/
theorem withinScope_comm (f g : Fragment) (s : Scope) : withinScope f g s = withinScope g f s := by
  have hfile : (f.file = g.file) = (g.file = f.file) := propext eq_comm
  cases s with
  | project => rfl
  | file => simp only [withinScope, hfile]
  | classBody =>
    have hhome : (f.home = g.home) = (g.home = f.home) := propext eq_comm
    simp only [withinScope, hfile, hhome]
  | method =>
    -- Which of the two has a method matters only if both have the same one.
    by_cases hmethod : f.method = g.method
    · simp only [withinScope, hfile, hmethod]
    · have hmethod' : ¬ g.method = f.method := fun h ↦ hmethod h.symm
      simp only [withinScope, hmethod, hmethod', decide_false, Bool.and_false]

/-- No filter tells the two fragments of a pair apart. -/
theorem admits_comm (c : Config α) (f g : Fragment) (t : Filter) :
    admits c f g t = admits c g f t := by
  cases t with
  | overlap => rw [admits, admits, Location.overlaps_comm]
  | scope => rw [admits, admits, withinScope_comm]
  | size => rw [admits, admits, Nat.min_comm, Nat.max_comm]
  | tokens => rw [admits, admits, sharedCount_comm, Nat.max_comm]

/-- No chain of filters tells the two fragments of a pair apart. -/
theorem admitsAll_comm (c : Config α) (filters : List Filter) (f g : Fragment) :
    admitsAll c filters f g = admitsAll c filters g f := by
  have hsame : admits c f g = admits c g f := funext (admits_comm c f g)
  rw [admitsAll, admitsAll, hsame]

/-- A chain lets a pair pass exactly if all its filters do. -/
theorem admitsAll_iff {c : Config α} {filters : List Filter} {f g : Fragment} :
    admitsAll c filters f g = true ↔ ∀ t ∈ filters, admits c f g t = true :=
  List.all_eq_true

end Exchange

/-! ### Filters by length -/

variable {c : Config ℚ} {filters kept : List Filter}

/-- A pair that a chain with the filter by shapes lets pass goes through every chain without other
filters of its own, be there filters by length in it or not. -/
theorem admitsAll_of_subset (hw : c.weights.Nonnegative) (htokens : tokens ∈ kept)
    (hsubset : ∀ t ∈ filters, t ≠ size → t ∈ kept) {f g : Fragment}
    (h : admitsAll c kept f g = true) : admitsAll c filters f g = true := by
  rw [admitsAll_iff] at h ⊢
  intro t ht
  by_cases hsize : t = size
  · subst hsize
    exact admits_size_of_admits_tokens hw (h tokens htokens)
  · exact h t (hsubset t ht hsize)

/-- Chains with the filter by shapes that differ in filters by length alone answer the same. -/
theorem admitsAll_eq_of_filter_eq (hw : c.weights.Nonnegative) (htokens : tokens ∈ filters)
    (hkept : (kept.filter fun t ↦ t ≠ size) = filters.filter fun t ↦ t ≠ size)
    (f g : Fragment) : admitsAll c kept f g = admitsAll c filters f g := by
  have hmem (t : Filter) (hsize : t ≠ size) : t ∈ kept ↔ t ∈ filters := by
    have hiff : t ∈ (kept.filter fun t ↦ t ≠ size) ↔ t ∈ filters.filter fun t ↦ t ≠ size := by
      rw [hkept]
    rwa [List.mem_filter, List.mem_filter, decide_eq_true hsize, and_iff_left rfl,
      and_iff_left rfl] at hiff
  have htokens' : tokens ∈ kept := (hmem tokens Filter.noConfusion).mpr htokens
  rw [Bool.eq_iff_iff]
  constructor
  · exact admitsAll_of_subset hw htokens' fun t ht hsize ↦ (hmem t hsize).mpr ht
  · exact admitsAll_of_subset hw htokens fun t ht hsize ↦ (hmem t hsize).mp ht

/-- Assumes: no weight is negative. The filter by lengths only spares work: two fragments share no
more shapes than the shorter one has statements, so that a pair which passes the filter by shapes
passes the one by lengths too, and a chain with the filter by shapes gives the same answers
whichever of its filters by length are left out. No filter, and so no chain, tells the two fragments
of a pair apart. -/
theorem size_spares_work (c : Config ℚ) (hw : c.weights.Nonnegative) :
    (∀ f g : Fragment, sharedCount f.shapes g.shapes ≤ min f.length g.length) ∧
      (∀ f g : Fragment, admits c f g tokens = true → admits c f g size = true) ∧
      (∀ filters kept : List Filter, tokens ∈ filters →
        (kept.filter fun t ↦ t ≠ size) = (filters.filter fun t ↦ t ≠ size) →
          ∀ f g : Fragment, admitsAll c kept f g = admitsAll c filters f g) ∧
      (∀ (t : Filter) (f g : Fragment), admits c f g t = admits c g f t) ∧
      ∀ (filters : List Filter) (f g : Fragment),
        admitsAll c filters f g = admitsAll c filters g f := by
  refine ⟨Fragment.sharedCount_shapes_le, ?_, ?_, ?_, admitsAll_comm c⟩
  · exact fun f g ↦ admits_size_of_admits_tokens hw
  · exact fun filters kept htokens hkept ↦ admitsAll_eq_of_filter_eq hw htokens hkept
  · exact fun t f g ↦ admits_comm c f g t

/-- Four calls and a loop against three calls and two loops share four of five shapes, which is
enough; a call and a loop against two loops share one of two, which is not, although the lengths
agree. In both cases the standard chain needs no filter by lengths. -/
theorem size_spares_work_calls :
    let c : Config ℚ := Config.default
    let outlined (line : ℤ) (shapes : List String) : Fragment :=
      { statements := shapes.map fun shape ↦ { shape, kind := "expression" }
        location := ⟨"Main.java", ⟨line, line + 4, 1, 1⟩⟩ }
    let f := outlined 1 ["call", "call", "loop", "call", "call"]
    let g := outlined 11 ["call", "loop", "call", "loop", "call"]
    let f' := outlined 21 ["call", "loop"]
    let g' := outlined 31 ["loop", "loop"]
    c.weights.Nonnegative ∧ sharedCount f.shapes g.shapes = 4 ∧ admits c f g size = true ∧
      admitsAll c standard g f = true ∧ admits c f' g' size = true ∧
      admits c f' g' tokens = false ∧
      admitsAll c [overlap, scope, tokens] f g = admitsAll c standard f g ∧
      admitsAll c [size, tokens, size, scope] f' g' = admitsAll c [tokens, size, scope] f' g' := by
  intro c outlined f g f' g'
  have hw : c.weights.Nonnegative :=
    ⟨by decide +kernel, by decide +kernel, by decide +kernel⟩
  obtain ⟨-, hsize, hchains, -, hexchange⟩ := size_spares_work c hw
  refine ⟨hw, by decide +kernel, ?_, ?_, by decide +kernel, by decide +kernel, ?_, ?_⟩
  · exact hsize f g (by decide +kernel)
  · exact (hexchange standard g f).trans (by decide +kernel)
  · exact hchains standard [overlap, scope, tokens] (by decide) (by decide) f g
  · exact hchains [tokens, size, scope] [size, tokens, size, scope] (by decide) (by decide) f' g'

end Filter

end NearClone
