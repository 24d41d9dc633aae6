import NearClone.Proofs.Similarity.Symmetry

/-!
# Verdicts

Whether two fragments can be merged is decided by their aligned pairs. The verdict of a comparison
is the one along its alignment (`Similarity.verdict_compare`): a pair where control flows
differently is also the only thing that makes a typing unsafe (`AlignedPair.any_flow_variations`).
A verdict along an alignment is the same from either side (`Verdict.along_swapped`), so that it
depends on the order of the two lists only through the direction of the alignment
(`Similarity.verdict_compare_eq_ite`).
-/

set_option autoImplicit false
set_option relaxedAutoImplicit false

namespace NearClone

/-- What is decided about merging two fragments. -/
structure Verdict where
  /-- Control would flow differently. -/
  diverts : Bool
  /-- The fragments can be merged. -/
  canRefactor : Bool
  /-- Something differs that no parameter can express. -/
  mismatch : Bool
  deriving DecidableEq, Repr

/-! ### Flow of control at a pair -/

namespace AlignedPair

/-- A difference between slots never changes the flow of control. -/
theorem kind_ne_controlFlow_of_mem_slotVariations {p : AlignedPair} {v : Variation}
    (h : v ∈ p.slotVariations) : v.kind ≠ .controlFlow := by
  rw [slotVariations, List.mem_filterMap] at h
  obtain ⟨⟨⟨a, b⟩, slot⟩, -, hv⟩ := h
  simp only [slotVariation?] at hv
  split at hv
  · cases hv
  · obtain rfl := Option.some.inj hv
    cases a.kind <;> cases b.kind <;> exact VariationKind.noConfusion

/-- A pair has a variation in the flow of control exactly if control flows differently there. -/
theorem any_flow_variations (p : AlignedPair) :
    (p.variations.any fun v ↦ v.kind = .controlFlow) = p.diverts := by
  unfold variations
  by_cases hdiverts : p.diverts = true
  · rw [if_pos hdiverts, hdiverts]
    rfl
  · rw [if_neg hdiverts, Bool.eq_false_iff.mpr hdiverts, List.any_eq_false]
    intro v hv
    rw [decide_eq_true_eq]
    split at hv
    · exact kind_ne_controlFlow_of_mem_slotVariations hv
    · exact absurd hv List.not_mem_nil

end AlignedPair

/-- Variations can all be parameters exactly if control flows alike at every pair. -/
theorem Typing.safe_ofVariations_ofPairs (left right : Hints) (unpaired : Bool)
    (pairs : List AlignedPair) :
    (ofVariations left right (Differences.ofPairs unpaired pairs).variations).safe =
      !pairs.any AlignedPair.diverts := by
  have hflow : (pairs.flatMap AlignedPair.variations).any (fun v ↦ v.kind = .controlFlow) =
      pairs.any AlignedPair.diverts := by
    rw [List.any_flatMap]
    simp only [AlignedPair.any_flow_variations]
  rw [← hflow, List.not_any_eq_all_not]
  simp only [ofVariations, Differences.ofPairs, ne_eq, decide_not]

/-! ### Verdicts along an alignment -/

namespace Verdict

/-- The verdict along an alignment. -/
def along (ss ts : List Statement) (a : Alignment) : Verdict where
  diverts := (a.pairsOf ss ts).any AlignedPair.diverts
  canRefactor := !(a.pairsOf ss ts).any AlignedPair.diverts
  mismatch := (Differences.along ss ts a).mismatch

/-- The verdict along the alignment that is directed from the first list. -/
def directed (ss ts : List Statement) : Verdict := along ss ts (Alignment.directed ss ts)

/-- The verdict along an alignment is the same from either side. -/
theorem along_swapped {a : Alignment} (h : a.aligned.Pairwise Alignment.Before)
    (ss ts : List Statement) : along ts ss a.swapped = along ss ts a := by
  simp only [along, Alignment.any_diverts_swapped h, Differences.mismatch_along_swapped h]

end Verdict

namespace Similarity

variable {α : Type} [Scalar α]

/-- The verdict of a comparison. -/
def verdict (s : Similarity α) : Verdict := ⟨s.diverts, s.canRefactor, s.differences.mismatch⟩

variable (w : Weights α) (f g : Fragment)

/-- Variations of a comparison can all be parameters exactly if control flows alike. -/
theorem safe_compare : (compare w f g).typing.safe = !(compare w f g).diverts := by
  rw [typing_compare, differences_compare, diverts_compare]
  exact Typing.safe_ofVariations_ofPairs f.hints g.hints _ _

/-- Fragments can be merged exactly if control flows alike. -/
theorem canRefactor_compare : (compare w f g).canRefactor = !(compare w f g).diverts := by
  rw [canRefactor, safe_compare, Bool.and_self]

/-- The verdict of a comparison is the one along its alignment. -/
theorem verdict_compare :
    (compare w f g).verdict =
      Verdict.along f.statements g.statements
        (Alignment.align f.statements g.statements) := by
  simp only [verdict, canRefactor_compare, diverts_compare, differences_compare, Verdict.along]

/-- The verdict of a comparison is directed from the fragment that comes first in the order of
lists. -/
theorem verdict_compare_eq_ite :
    (compare w f g).verdict =
      if (Statement.compareLists g.statements f.statements).isLT then
        Verdict.directed g.statements f.statements
      else Verdict.directed f.statements g.statements := by
  rw [verdict_compare, Alignment.align]
  split
  · exact Verdict.along_swapped (Alignment.ascends_aligned_directed _ _).pairwise _ _
  · rfl

end Similarity

end NearClone
