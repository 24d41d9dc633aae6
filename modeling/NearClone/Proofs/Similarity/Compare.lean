import NearClone.Proofs.Alignment.Align
import NearClone.Similarity

/-!
# The parts of a comparison

What a comparison says besides the scores follows from the alignment alone, and two empty fragments
are no exception: their alignment has no pair. The lemmas give the differences, the typing and the
verdict on the flow of control as functions of that alignment.
-/

set_option autoImplicit false
set_option relaxedAutoImplicit false

namespace NearClone

/-- Two empty lists have no aligned pair. -/
theorem Alignment.pairsOf_align_nil : (align [] []).pairsOf [] [] = [] := by
  have hempty : align [] [] = {} := by decide
  rw [hempty, pairsOf, aligned, List.append_nil, Listing.sortBy_nil, List.filterMap_nil]

/-- The pairs of an alignment are the statements at its matched and substituted positions. -/
theorem Alignment.mem_pairsOf {a : Alignment} {ss ts : List Statement} {p : AlignedPair} :
    p ∈ a.pairsOf ss ts ↔
      ∃ i j s t, (i, j) ∈ a.matched ++ a.substituted ∧ ss[i]? = some s ∧ ts[j]? = some t ∧
        p = ⟨i, j, s, t⟩ := by
  rw [pairsOf, List.mem_filterMap]
  constructor
  · rintro ⟨⟨i, j⟩, hplace, hpair⟩
    obtain ⟨s, hs, hpair⟩ := Option.bind_eq_some_iff.mp hpair
    obtain ⟨t, ht, hpair⟩ := Option.bind_eq_some_iff.mp hpair
    exact ⟨i, j, s, t, Listing.mem_sortBy.mp hplace, hs, ht, (Option.some.inj hpair).symm⟩
  · rintro ⟨i, j, s, t, hplace, hs, ht, rfl⟩
    refine ⟨(i, j), Listing.mem_sortBy.mpr hplace, ?_⟩
    simp only [hs, ht]
    rfl

/-- When a pair is good enough. -/
theorem Config.accepts_iff {α : Type} [Scalar α] {c : Config α} {f g : Fragment}
    {similarity : Similarity α} :
    c.accepts f g similarity = true ↔
      c.threshold ≤ similarity.overall ∧ c.minLines ≤ f.length ∧ c.minLines ≤ g.length := by
  rw [accepts, admitsLength, admitsLength, Bool.and_eq_true, Bool.and_eq_true, decide_eq_true_eq,
    decide_eq_true_eq, decide_eq_true_eq, and_comm]

namespace Similarity

variable {α : Type} [Scalar α] (w : Weights α) (f g : Fragment)

/-- Fragments without statements have no statements. -/
theorem statements_eq_nil_of_max_eq_zero {f g : Fragment} (h : max f.length g.length = 0) :
    f.statements = [] ∧ g.statements = [] := by
  rw [Nat.max_eq_zero_iff] at h
  exact ⟨List.length_eq_zero_iff.mp h.1, List.length_eq_zero_iff.mp h.2⟩

/-- The differences of a comparison are those along the alignment. -/
theorem differences_compare :
    (compare w f g).differences =
      Differences.along f.statements g.statements
        (Alignment.align f.statements g.statements) := by
  by_cases h : max f.length g.length = 0
  · obtain ⟨hf, hg⟩ := statements_eq_nil_of_max_eq_zero h
    simp only [compare, if_pos h, hf, hg, Differences.along, Alignment.pairsOf_align_nil]
    rfl
  · simp only [compare, if_neg h]

/-- The typing of a comparison is that of its variations. -/
theorem typing_compare :
    (compare w f g).typing =
      Typing.ofVariations f.hints g.hints (compare w f g).differences.variations := by
  by_cases h : max f.length g.length = 0
  · simp only [compare, if_pos h]
    rfl
  · simp only [compare, if_neg h]

/-- Control flows differently if it does at some aligned pair. -/
theorem diverts_compare :
    (compare w f g).diverts =
      ((Alignment.align f.statements g.statements).pairsOf f.statements g.statements).any
        AlignedPair.diverts := by
  by_cases h : max f.length g.length = 0
  · obtain ⟨hf, hg⟩ := statements_eq_nil_of_max_eq_zero h
    simp only [compare, if_pos h, hf, hg, Alignment.pairsOf_align_nil]
    rfl
  · simp only [compare, if_neg h]

end Similarity

end NearClone
