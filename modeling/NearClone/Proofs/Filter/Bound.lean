import NearClone.Filter
import NearClone.Proofs.Alignment.Align
import NearClone.Proofs.EditDistance
import NearClone.Proofs.Number.Exact

/-!
# The bound of the score filters

The share of common shapes caps the score of the common subsequence and that of the edit distance,
and one caps the structural score. So the overall score stays below the bound of the filters, up to
half a unit of its last place (`overall_compare_le`), and that unit is far smaller than the slack.
A pair that the filter by shapes or the one by lengths turns away is therefore never accepted
(`accepts_compare_of_not_admits`).
-/

set_option autoImplicit false
set_option relaxedAutoImplicit false

namespace NearClone

open Listing

/-- Two fragments share no more shapes than the shorter one has statements. -/
theorem Fragment.sharedCount_shapes_le (f g : Fragment) :
    sharedCount f.shapes g.shapes ≤ min f.length g.length := by
  have hleft := sharedCount_le_left f.shapes g.shapes
  have hright := sharedCount_le_right f.shapes g.shapes
  rw [shapes, List.length_map] at hleft
  rw [shapes, shapes, List.length_map] at hright
  exact le_min hleft hright

/-- No weight is negative. -/
structure Weights.Nonnegative (w : Weights ℚ) : Prop where
  lcs : 0 ≤ w.lcs
  levenshtein : 0 ≤ w.levenshtein
  structural : 0 ≤ w.structural

/-- Larger scores have a larger weighted sum. -/
theorem Weights.Nonnegative.combine_le {w : Weights ℚ} (hw : w.Nonnegative)
    {lcs levenshtein structural lcs' levenshtein' structural' : ℚ} (hlcs : lcs ≤ lcs')
    (hlevenshtein : levenshtein ≤ levenshtein') (hstructural : structural ≤ structural') :
    w.combine lcs levenshtein structural ≤ w.combine lcs' levenshtein' structural' :=
  add_le_add
    (add_le_add (mul_le_mul_of_nonneg_left hlcs hw.lcs)
      (mul_le_mul_of_nonneg_left hlevenshtein hw.levenshtein))
    (mul_le_mul_of_nonneg_left hstructural hw.structural)

namespace Filter

/-- The bound is the weighted sum in which a share stands for the first two scores and one for the
structural score. -/
theorem bound_eq_combine (w : Weights ℚ) (share : ℚ) : bound w share = w.combine share share 1 := by
  change (w.lcs + w.levenshtein) * share + w.structural =
    w.lcs * share + w.levenshtein * share + w.structural * 1
  ring

/-- A larger share has a larger bound. -/
theorem bound_le_bound {w : Weights ℚ} (hw : w.Nonnegative) {share share' : ℚ}
    (h : share ≤ share') : bound w share ≤ bound w share' := by
  rw [bound_eq_combine, bound_eq_combine]
  exact hw.combine_le h h le_rfl

/-- The slack is a billionth. -/
theorem slack_rat : (slack : ℚ) = 1 / 1000000000 := by
  change (1e-9 : ℚ) = 1 / 1000000000
  norm_num

/-- When so many statements are enough to reach the threshold. -/
theorem reaches_iff (c : Config ℚ) (part longest : ℕ) :
    reaches c part longest = true ↔
      longest ≠ 0 ∧ c.threshold - 1 / 1000000000 ≤ bound c.weights ((part : ℚ) / longest) := by
  rw [← slack_rat]
  simp only [reaches, Bool.and_eq_true, decide_eq_true_eq]
  rfl

/-- More statements reach the threshold whenever fewer do. -/
theorem reaches_of_le {c : Config ℚ} (hw : c.weights.Nonnegative) {part part' longest : ℕ}
    (hpart : part ≤ part') (h : reaches c part longest = true) :
    reaches c part' longest = true := by
  rw [reaches_iff] at h ⊢
  have hshare : (part : ℚ) / longest ≤ (part' : ℚ) / longest :=
    div_le_div_of_nonneg_right (by exact_mod_cast hpart) (Nat.cast_nonneg longest)
  exact ⟨h.1, h.2.trans (bound_le_bound hw hshare)⟩

/-- A pair that shares enough shapes has lengths that are close enough. -/
theorem admits_size_of_admits_tokens {c : Config ℚ} (hw : c.weights.Nonnegative) {f g : Fragment}
    (h : admits c f g tokens = true) : admits c f g size = true :=
  reaches_of_le hw (f.sharedCount_shapes_le g) h

end Filter

/-! ### The scores below the bound -/

namespace Similarity

/-- The structural score is at most one. -/
theorem structuralScore_align_le_one (ss ts : List Statement) :
    (structuralScore (Alignment.align ss ts) : ℚ) ≤ 1 := by
  unfold structuralScore
  split
  · exact zero_le_one
  · rw [Scalar.ratio_rat]
    refine div_le_one_of_le₀ ?_ (Nat.cast_nonneg _)
    exact_mod_cast Alignment.fine_align_le ss ts

/-- The score of the edit distance is at most the share of common shapes. -/
theorem one_sub_distance_div_le (f g : Fragment) (h : max f.length g.length ≠ 0) :
    (1 : ℚ) - EditDistance.distance f.shapes g.shapes / (max f.length g.length : ℕ) ≤
      sharedCount f.shapes g.shapes / (max f.length g.length : ℕ) := by
  have hpositive : (0 : ℚ) < (max f.length g.length : ℕ) := by
    exact_mod_cast Nat.pos_of_ne_zero h
  have hlength := EditDistance.max_length_le_distance_add_sharedCount f.shapes g.shapes
  rw [Fragment.shapes, Fragment.shapes, List.length_map, List.length_map] at hlength
  have hsum : ((max f.length g.length : ℕ) : ℚ) ≤
      EditDistance.distance f.shapes g.shapes + sharedCount f.shapes g.shapes := by
    exact_mod_cast hlength
  rw [sub_le_iff_le_add, ← add_div, one_le_div hpositive]
  linarith

/-- The overall score is at most the bound for the share of common shapes, up to half a unit of its
last place. -/
theorem overall_compare_le {w : Weights ℚ} (hw : w.Nonnegative) (f g : Fragment)
    (h : max f.length g.length ≠ 0) :
    (compare w f g).overall ≤
      Filter.bound w (sharedCount f.shapes g.shapes / (max f.length g.length : ℕ)) +
        1 / (2 * (Nat.pow 10 places : ℕ)) := by
  have hmatched : (((Alignment.align f.statements g.statements).matched.length : ℕ) : ℚ) /
      (max f.length g.length : ℕ) ≤
        sharedCount f.shapes g.shapes / (max f.length g.length : ℕ) := by
    refine div_le_div_of_nonneg_right ?_ (Nat.cast_nonneg _)
    exact_mod_cast Alignment.length_matched_align_le f.statements g.statements
  have hcombined := hw.combine_le hmatched (one_sub_distance_div_le f g h)
    (structuralScore_align_le_one f.statements g.statements)
  rw [← Filter.bound_eq_combine] at hcombined
  simp only [compare, if_neg h]
  exact (Number.roundRat_le_add places _).trans (add_le_add_left hcombined _)

end Similarity

namespace Filter

/-- The half unit of a rounded score is less than the slack. -/
theorem half_unit_lt_slack :
    (1 : ℚ) / (2 * (Nat.pow 10 Similarity.places : ℕ)) < 1 / 1000000000 := by
  have hpow : Nat.pow 10 Similarity.places = 10000000000 := by decide
  rw [hpow]
  norm_num

/-- A pair that the filter by shapes turns away is not accepted. -/
theorem accepts_compare_of_not_tokens {c : Config ℚ} (hw : c.weights.Nonnegative)
    (hmin : 1 ≤ c.minLines) {f g : Fragment} (h : admits c f g tokens = false) :
    c.accepts f g (Similarity.compare c.weights f g) = false := by
  by_cases hlongest : max f.length g.length = 0
  · -- Two empty fragments are too short for every configuration.
    have hlength : f.length = 0 := by omega
    have hshort : c.admitsLength f = false := by
      simp only [Config.admitsLength, decide_eq_false_iff_not, hlength]
      omega
    rw [Config.accepts, hshort]
    rfl
  · have hreaches : ¬ reaches c (sharedCount f.shapes g.shapes) (max f.length g.length) = true := by
      rw [← Bool.not_eq_true] at h
      exact h
    have hbound : ¬ c.threshold - 1 / 1000000000 ≤ bound c.weights
        (sharedCount f.shapes g.shapes / (max f.length g.length : ℕ)) :=
      fun hle ↦ hreaches ((reaches_iff c _ _).mpr ⟨hlongest, hle⟩)
    have hoverall := Similarity.overall_compare_le hw f g hlongest
    have hunit := half_unit_lt_slack
    have hbelow : ¬ c.threshold ≤ (Similarity.compare c.weights f g).overall := by
      intro hle
      apply hbound
      linarith
    rw [Config.accepts, Bool.and_eq_false_iff]
    exact Or.inr (decide_eq_false hbelow)

/-- A pair that the filter by lengths or the one by shapes turns away is not accepted. -/
theorem accepts_compare_of_not_admits {c : Config ℚ} (hw : c.weights.Nonnegative)
    (hmin : 1 ≤ c.minLines) {f g : Fragment}
    (h : admits c f g size = false ∨ admits c f g tokens = false) :
    c.accepts f g (Similarity.compare c.weights f g) = false := by
  rcases h with hsize | htokens
  · refine accepts_compare_of_not_tokens hw hmin ?_
    by_contra htokens
    rw [Bool.not_eq_false] at htokens
    rw [admits_size_of_admits_tokens hw htokens] at hsize
    exact Bool.noConfusion hsize
  · exact accepts_compare_of_not_tokens hw hmin htokens

end Filter

end NearClone
