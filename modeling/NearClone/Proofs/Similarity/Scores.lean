import NearClone.Proofs.Alignment.Symmetry
import NearClone.Proofs.Filter.Bound
import NearClone.Proofs.Form.Config
import NearClone.Proofs.Similarity.Compare

/-!
# Scores are shares

The component scores of a comparison are counts over counts, so they lie between zero and one
(`Similarity.components_mem_Icc`), and no overall score is above the rounded sum of the weights
(`Similarity.overall_mem_Icc`). Two fragments of one outline, that is, with equal shapes and fine
shapes throughout, reach one in every component and that sum overall
(`Similarity.overall_compare_of_sameOutline`). The weights of an accepted configuration sum to one
only up to a tolerance, though, and scores are rounded to more places than the tolerance has. So the
best overall score is one, and clones are accepted at every threshold, exactly if the sum of the
weights is within half a unit of the last place of one (`Config.scores_of_ofFields`).
-/

set_option autoImplicit false
set_option relaxedAutoImplicit false

namespace NearClone

open Form Number

/-- Two fragments have the same shapes and the same fine shapes, statement by statement. -/
def Fragment.SameOutline (f g : Fragment) : Prop :=
  f.statements.map Statement.outline = g.statements.map Statement.outline

namespace Fragment.SameOutline

variable {f g : Fragment} (h : f.SameOutline g)

include h

theorem length_eq : f.length = g.length := by
  have hlength := congrArg List.length h
  rwa [List.length_map, List.length_map] at hlength

theorem shapes_eq : f.shapes = g.shapes := by
  have hshapes := congrArg (List.map Prod.fst) h
  rwa [List.map_map, List.map_map] at hshapes

/-- Every statement of a fragment is matched with that of the other at the same position. -/
theorem matched_align :
    let alignment := Alignment.align f.statements g.statements
    alignment.matched.length = f.length ∧ alignment.fine = f.length := by
  have htrail : Alignment.bestTrail f.statements.reverse f.statements.reverse =
      Alignment.diagonal f.length := by
    rw [Alignment.bestTrail_self, List.length_reverse, Fragment.length]
  intro alignment
  have hself : alignment = Alignment.directed f.statements f.statements :=
    Alignment.align_eq_directed_self h
  rw [hself, Alignment.length_matched_directed, htrail, Alignment.coarse_diagonal]
  refine ⟨rfl, ?_⟩
  rw [Alignment.directed, htrail, Alignment.ofTrail, Alignment.fine_diagonal]

end Fragment.SameOutline

/-! ### Weights -/

namespace Weights

/-- Weights between zero and one are not negative. -/
theorem Admissible.nonnegative {w : Weights ℚ} (hw : w.Admissible) : w.Nonnegative :=
  ⟨hw.lcs.1, hw.levenshtein.1, hw.structural.1⟩

theorem combine_zero (w : Weights ℚ) : w.combine 0 0 0 = 0 := by
  change w.lcs * 0 + w.levenshtein * 0 + w.structural * 0 = 0
  ring

theorem combine_one (w : Weights ℚ) : w.combine 1 1 1 = w.total := by
  change w.lcs * 1 + w.levenshtein * 1 + w.structural * 1 = w.lcs + w.levenshtein + w.structural
  ring

end Weights

/-! ### Scores -/

/-- A count out of another is a share. -/
theorem div_mem_Icc {part whole : ℕ} (h : part ≤ whole) : (part : ℚ) / whole ∈ Set.Icc 0 1 :=
  ⟨by positivity, div_le_one_of_le₀ (by exact_mod_cast h) (Nat.cast_nonneg whole)⟩

namespace Similarity

theorem structuralScore_mem_Icc (ss ts : List Statement) :
    (structuralScore (Alignment.align ss ts) : ℚ) ∈ Set.Icc 0 1 := by
  unfold structuralScore
  split
  · exact ⟨le_rfl, zero_le_one⟩
  · exact div_mem_Icc (Alignment.fine_align_le ss ts)

/-- There are no more matches than the longer fragment has statements. -/
theorem matched_div_mem_Icc (f g : Fragment) :
    ((Alignment.align f.statements g.statements).matched.length : ℚ) /
      (max f.length g.length : ℕ) ∈ Set.Icc 0 1 := by
  have hmatched := Alignment.length_matched_align_le f.statements g.statements
  have hshared := Listing.sharedCount_le_left f.shapes g.shapes
  rw [Fragment.shapes, List.length_map] at hshared
  exact div_mem_Icc (hmatched.trans (hshared.trans (le_max_left _ _)))

/-- There are no more edits than the longer fragment has statements. -/
theorem one_sub_distance_div_mem_Icc (f g : Fragment) :
    1 - (EditDistance.distance f.shapes g.shapes : ℚ) / (max f.length g.length : ℕ) ∈
      Set.Icc 0 1 := by
  have hdistance := EditDistance.distance_le_max_length f.shapes g.shapes
  rw [Fragment.shapes, Fragment.shapes, List.length_map, List.length_map] at hdistance
  obtain ⟨hlow, hhigh⟩ := div_mem_Icc hdistance
  exact ⟨sub_nonneg.mpr hhigh, sub_le_self 1 hlow⟩

/-- The component scores are shares, whatever the weights are. -/
theorem components_compare_mem_Icc (w : Weights ℚ) (f g : Fragment) :
    let similarity := compare w f g
    similarity.lcs ∈ Set.Icc 0 1 ∧ similarity.levenshtein ∈ Set.Icc 0 1 ∧
      similarity.structural ∈ Set.Icc 0 1 := by
  by_cases h : max f.length g.length = 0
  · have hzero : (0 : ℚ) ∈ Set.Icc 0 1 := ⟨le_rfl, zero_le_one⟩
    simp only [compare, if_pos h]
    exact ⟨hzero, hzero, hzero⟩
  · simp only [compare, if_neg h]
    exact ⟨roundRat_mem_Icc places (matched_div_mem_Icc f g),
      roundRat_mem_Icc places (one_sub_distance_div_mem_Icc f g),
      roundRat_mem_Icc places (structuralScore_mem_Icc f.statements g.statements)⟩

/-- The overall score lies between zero and the rounded sum of the weights. -/
theorem overall_compare_mem_Icc {w : Weights ℚ} (hw : w.Nonnegative) (f g : Fragment) :
    (compare w f g).overall ∈ Set.Icc 0 (roundRat places w.total) := by
  by_cases h : max f.length g.length = 0
  · have htotal : 0 ≤ w.total := add_nonneg (add_nonneg hw.lcs hw.levenshtein) hw.structural
    have hround := roundRat_le_roundRat places htotal
    rw [roundRat_zero] at hround
    simp only [compare, if_pos h]
    exact ⟨le_rfl, hround⟩
  · obtain ⟨hlcs, hlcs'⟩ := matched_div_mem_Icc f g
    obtain ⟨hlevenshtein, hlevenshtein'⟩ := one_sub_distance_div_mem_Icc f g
    obtain ⟨hstructural, hstructural'⟩ := structuralScore_mem_Icc f.statements g.statements
    have hlow := roundRat_le_roundRat places (hw.combine_le hlcs hlevenshtein hstructural)
    have hhigh := roundRat_le_roundRat places (hw.combine_le hlcs' hlevenshtein' hstructural')
    rw [Weights.combine_zero, roundRat_zero] at hlow
    rw [Weights.combine_one] at hhigh
    simp only [compare, if_neg h]
    exact ⟨hlow, hhigh⟩

/-- Two fragments of one outline reach one in every component, and so the rounded sum of the
weights overall. -/
theorem overall_compare_of_sameOutline (w : Weights ℚ) {f g : Fragment} (h : f.SameOutline g)
    (hlength : f.length ≠ 0) : (compare w f g).overall = roundRat places w.total := by
  have hlongest : max f.length g.length = f.length := by rw [← h.length_eq, max_self]
  have hlengthRat : (f.length : ℚ) ≠ 0 := by exact_mod_cast hlength
  obtain ⟨hmatched, hfine⟩ := h.matched_align
  have hstructural :
      (structuralScore (Alignment.align f.statements g.statements) : ℚ) = 1 := by
    rw [structuralScore, if_neg, Scalar.ratio_rat, hmatched, hfine, div_self hlengthRat]
    rwa [List.isEmpty_iff_length_eq_zero, hmatched]
  have hcombined : w.combine ((f.length : ℚ) / f.length)
      (Scalar.ofInt 1 - (0 : ℕ) / f.length) 1 = w.total := by
    rw [div_self hlengthRat, Nat.cast_zero, zero_div, sub_zero]
    exact w.combine_one
  simp only [compare, hlongest, if_neg hlength, hstructural, Scalar.ratio_rat, hmatched,
    ← h.shapes_eq, EditDistance.distance_self, Scalar.roundTo_rat]
  rw [hcombined]

/-- All scores of a comparison lie between zero and one. -/
structure Normalized (s : Similarity ℚ) : Prop where
  lcs : s.lcs ∈ Set.Icc 0 1
  levenshtein : s.levenshtein ∈ Set.Icc 0 1
  structural : s.structural ∈ Set.Icc 0 1
  overall : s.overall ∈ Set.Icc 0 1

end Similarity

/-! ### Accepted configurations -/

namespace Config

/-- Scores under a configuration are normalised: they lie between zero and one, the overall score of
two fragments of one outline is one, and at every threshold up to one such fragments are accepted if
they are long enough. -/
structure Normalizes (c : Config ℚ) : Prop where
  normalized : ∀ f g : Fragment, (Similarity.compare c.weights f g).Normalized
  overall_eq_one : ∀ f g : Fragment, f.SameOutline g → f.length ≠ 0 →
    (Similarity.compare c.weights f g).overall = 1
  accepts_eq_true : ∀ f g : Fragment, f.SameOutline g → c.minLines ≤ f.length →
    ∀ threshold ∈ Set.Icc (0 : ℚ) 1,
      accepts { c with threshold } f g (Similarity.compare c.weights f g) = true

/-- Scores are normalised exactly if the sum of the weights is rounded to one. -/
theorem normalizes_iff {c : Config ℚ} (hc : c.Admissible) :
    c.Normalizes ↔ roundRat Similarity.places c.weights.total = 1 := by
  constructor
  · intro h
    let call : Fragment :=
      { statements := [{ shape := "call", kind := "expression" }], location := ⟨"", ⟨1, 1, 1, 1⟩⟩ }
    have hsame : call.SameOutline call := rfl
    rw [← Similarity.overall_compare_of_sameOutline c.weights hsame Nat.one_ne_zero]
    exact h.overall_eq_one call call hsame Nat.one_ne_zero
  · intro htotal
    have hclone (f g : Fragment) (hsame : f.SameOutline g) (hlength : f.length ≠ 0) :
        (Similarity.compare c.weights f g).overall = 1 := by
      rw [Similarity.overall_compare_of_sameOutline c.weights hsame hlength, htotal]
    refine ⟨fun f g ↦ ?_, hclone, fun f g hsame hleast threshold hthreshold ↦ ?_⟩
    · obtain ⟨hlcs, hlevenshtein, hstructural⟩ :=
        Similarity.components_compare_mem_Icc c.weights f g
      have hoverall := Similarity.overall_compare_mem_Icc hc.weights.nonnegative f g
      rw [htotal] at hoverall
      exact ⟨hlcs, hlevenshtein, hstructural, hoverall⟩
    · have hlength : f.length ≠ 0 := by
        have hmin := hc.minLines
        omega
      refine accepts_iff.mpr ⟨?_, hleast, hsame.length_eq ▸ hleast⟩
      rw [hclone f g hsame hlength]
      exact hthreshold.2

/-- What the scores are under an accepted configuration. The component scores are shares, and the
overall score lies between zero and the sum of the weights, rounded to the places of scores, which
two fragments of one outline reach. The weights sum to one up to a tolerance only, though. Scores
are normalised, so that such fragments are accepted at every threshold, exactly if the sum is within
half a unit of the last of those places of one. -/
theorem scores_of_ofFields {fields : Fields ℚ} {c : Config ℚ} (h : ofFields fields = .ok c) :
    (∀ f g : Fragment,
      let similarity := Similarity.compare c.weights f g
      similarity.lcs ∈ Set.Icc 0 1 ∧ similarity.levenshtein ∈ Set.Icc 0 1 ∧
        similarity.structural ∈ Set.Icc 0 1 ∧
        similarity.overall ∈ Set.Icc 0 (roundRat Similarity.places c.weights.total)) ∧
    (∀ f g : Fragment, f.SameOutline g → f.length ≠ 0 →
      (Similarity.compare c.weights f g).overall =
        roundRat Similarity.places c.weights.total) ∧
    (c.Normalizes ↔ |c.weights.total - 1| ≤ 1 / (2 * 10 ^ 10)) := by
  have hc := admissible_of_ofFields h
  have hunit : (1 : ℚ) / (2 * (Nat.pow 10 Similarity.places : ℕ)) = 1 / (2 * 10 ^ 10) := by
    rw [Nat.pow_eq, Nat.cast_pow, Similarity.places, Nat.cast_ofNat]
  refine ⟨fun f g ↦ ?_, fun f g ↦ Similarity.overall_compare_of_sameOutline c.weights, ?_⟩
  · obtain ⟨hlcs, hlevenshtein, hstructural⟩ := Similarity.components_compare_mem_Icc c.weights f g
    have hoverall := Similarity.overall_compare_mem_Icc hc.weights.nonnegative f g
    exact ⟨hlcs, hlevenshtein, hstructural, hoverall⟩
  · rw [normalizes_iff hc, roundRat_eq_one_iff (by decide), hunit]

/-- Under weights of one half and two quarters scores are normalised. -/
theorem scores_of_ofFields_halves :
    let weights : Document ℚ :=
      .object [("lcs", .number 0.5), ("levenshtein", .number 0.25), ("structural", .number 0.25)]
    ∃ c, ofFields [("min_lines", .int 1), ("weights", weights)] = .ok c ∧ c.Normalizes := by
  intro weights
  let c : Config ℚ := { default with minLines := 1, weights := ⟨0.5, 0.25, 0.25⟩ }
  have haccepted : ofFields [("min_lines", .int 1), ("weights", weights)] = .ok c :=
    Checked.value?_eq_some_iff.mp (by decide +kernel)
  obtain ⟨-, -, hnormalizes⟩ := scores_of_ofFields haccepted
  refine ⟨c, haccepted, hnormalizes.mpr ?_⟩
  have htotal : c.weights.total = 1 := by decide +kernel
  rw [htotal, sub_self, abs_zero]
  positivity

/-- Weights that sum to a little less than one are accepted, and so are weights that sum to a little
more. Under the former a fragment is no clone of itself at a threshold of one, and under the latter
it scores more than one. -/
theorem exists_overall_ne_one :
    let fields : ℚ → Fields ℚ := fun weight ↦
      [("min_lines", .int 1), ("threshold", .int 1),
       ("weights", Weights.document ⟨weight, weight, weight⟩)]
    let call : Fragment :=
      { statements := [{ shape := "call", kind := "expression" }]
        location := ⟨"main", ⟨1, 1, 1, 1⟩⟩ }
    ∃ low high : Config ℚ,
      ofFields (fields 0.3333331) = .ok low ∧ ofFields (fields 0.3333336) = .ok high ∧
        (Similarity.compare low.weights call call).overall = 0.9999993 ∧
        low.accepts call call (Similarity.compare low.weights call call) = false ∧
        (Similarity.compare high.weights call call).overall = 1.0000008 := by
  intro fields call
  let even (weight : ℚ) : Config ℚ :=
    { default with minLines := 1, threshold := 1, weights := ⟨weight, weight, weight⟩ }
  refine ⟨even 0.3333331, even 0.3333336, ?_, ?_, ?_, ?_, ?_⟩
  · exact Checked.value?_eq_some_iff.mp (by decide +kernel)
  · exact Checked.value?_eq_some_iff.mp (by decide +kernel)
  all_goals decide +kernel

end Config

end NearClone
