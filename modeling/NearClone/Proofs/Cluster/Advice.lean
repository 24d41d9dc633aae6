import NearClone.Cluster.Advice

/-!
# What advice rests on

The strategy is a review by hand exactly if some pair of the cluster cannot be merged
(`strategy_eq_manualReview_iff`), and exactly then no method name is suggested
(`methodName_recommend_eq_none_iff`). All other clusters become a method or a utility class, by the
number of their homes (`strategy_of_isSafe`). Confidence is high where the mean score is, unless
some pair has a mismatch, which lowers it (`confidence_recommend_eq_high_iff`).
-/

set_option autoImplicit false
set_option relaxedAutoImplicit false

namespace NearClone

/-- What is lowered is not high. -/
theorem Confidence.lowered_ne_high (c : Confidence) : c.lowered ≠ .high := by
  cases c <;> exact Confidence.noConfusion

namespace Cluster

variable {α : Type} {config : Config α} {k : Cluster α} {ordinal : Int}

/-- A cluster is to be reviewed by hand unless it is safe. -/
theorem strategy_eq_manualReview_iff_isSafe (k : Cluster α) :
    k.strategy = .manualReview ↔ k.isSafe = false := by
  unfold strategy
  cases k.isSafe with
  | false => exact iff_of_true rfl rfl
  | true =>
    refine iff_of_false ?_ Bool.noConfusion
    change ¬ (if k.homes.length = 1 then Strategy.extractMethod else .utilityClass) = .manualReview
    split <;> exact Strategy.noConfusion

/-- A cluster with pairs is to be reviewed by hand exactly if some pair cannot be merged. -/
theorem strategy_eq_manualReview_iff (h : k.pairs ≠ []) :
    k.strategy = .manualReview ↔ ∃ p ∈ k.pairs, p.similarity.canRefactor = false := by
  have hpairs : k.pairs.isEmpty = false := List.isEmpty_eq_false_iff.mpr h
  rw [strategy_eq_manualReview_iff_isSafe, isSafe, hpairs, Bool.not_false, Bool.true_and,
    List.all_eq_false]
  simp only [Bool.not_eq_true]

/-- A cluster with pairs is to be merged exactly if all of its pairs can be. -/
theorem strategy_ne_manualReview_iff (h : k.pairs ≠ []) :
    k.strategy ≠ .manualReview ↔ ∀ p ∈ k.pairs, p.similarity.canRefactor = true := by
  rw [ne_eq, strategy_eq_manualReview_iff h]
  simp only [not_exists, not_and, Bool.not_eq_false]

/-- A cluster with pairs is safe exactly if all of its pairs can be merged. -/
theorem isSafe_iff (h : k.pairs ≠ []) :
    k.isSafe = true ↔ ∀ p ∈ k.pairs, p.similarity.canRefactor = true := by
  rw [← strategy_ne_manualReview_iff h, ne_eq, strategy_eq_manualReview_iff_isSafe,
    Bool.not_eq_false]

/-- What a safe cluster is to become depends on the number of its homes. -/
theorem strategy_of_isSafe (h : k.isSafe = true) :
    k.strategy = if k.homes.length = 1 then .extractMethod else .utilityClass := by
  rw [strategy, h]
  rfl

/-- A safe cluster is to become a method exactly if it has one home. -/
theorem strategy_eq_extractMethod_iff :
    k.strategy = .extractMethod ↔ k.isSafe = true ∧ k.homes.length = 1 := by
  cases hsafe : k.isSafe with
  | false =>
    rw [(strategy_eq_manualReview_iff_isSafe k).mpr hsafe]
    exact iff_of_false Strategy.noConfusion fun h ↦ Bool.noConfusion h.1
  | true =>
    rw [strategy_of_isSafe hsafe, and_iff_right rfl]
    by_cases hone : k.homes.length = 1
    · rw [if_pos hone]
      exact iff_of_true rfl hone
    · rw [if_neg hone]
      exact iff_of_false Strategy.noConfusion hone

/-- A safe cluster is to become a utility class exactly if it has several homes. -/
theorem strategy_eq_utilityClass_iff :
    k.strategy = .utilityClass ↔ k.isSafe = true ∧ k.homes.length ≠ 1 := by
  cases hsafe : k.isSafe with
  | false =>
    rw [(strategy_eq_manualReview_iff_isSafe k).mpr hsafe]
    exact iff_of_false Strategy.noConfusion fun h ↦ Bool.noConfusion h.1
  | true =>
    rw [strategy_of_isSafe hsafe, and_iff_right rfl]
    by_cases hone : k.homes.length = 1
    · rw [if_pos hone]
      exact iff_of_false Strategy.noConfusion (not_not_intro hone)
    · rw [if_neg hone]
      exact iff_of_true rfl hone

variable [Scalar α]

/-- A method name is suggested unless the cluster is to be reviewed by hand. -/
theorem methodName_recommend_eq_none_iff (config : Config α) (k : Cluster α) (ordinal : Int) :
    (k.recommend config ordinal).methodName = none ↔
      (k.recommend config ordinal).strategy = .manualReview := by
  change (if k.strategy = .manualReview then none else some _) = none ↔ k.strategy = .manualReview
  by_cases hstrategy : k.strategy = .manualReview
  · rw [if_pos hstrategy]
    exact iff_of_true rfl hstrategy
  · rw [if_neg hstrategy]
    exact iff_of_false (Option.some_ne_none _) hstrategy

/-- Confidence is high exactly if the mean score is high enough and no pair has a mismatch. -/
theorem confidence_recommend_eq_high_iff :
    (k.recommend config ordinal).confidence = .high ↔
      config.highConfidence ≤ k.averageSimilarity ∧
        ∀ p ∈ k.pairs, p.similarity.differences.mismatch = false := by
  have hmismatch : k.hasMismatch = false ↔
      ∀ p ∈ k.pairs, p.similarity.differences.mismatch = false := by
    rw [hasMismatch, List.any_eq_false]
    simp only [Bool.not_eq_true]
  rw [← hmismatch]
  change (if k.hasMismatch then Confidence.lowered _ else if _ then Confidence.high else _) = _ ↔ _
  cases k.hasMismatch with
  | true =>
    rw [if_pos rfl]
    exact iff_of_false (Confidence.lowered_ne_high _) fun h ↦ nomatch h.2
  | false =>
    rw [if_neg Bool.false_ne_true, and_iff_left rfl]
    by_cases hscore : config.highConfidence ≤ k.averageSimilarity
    · rw [if_pos hscore]
      exact iff_of_true rfl hscore
    · rw [if_neg hscore]
      refine iff_of_false ?_ hscore
      split <;> exact Confidence.noConfusion

/-- An annotated cluster is one of those given, with its advice. -/
theorem exists_of_mem_annotate {clusters : List (Cluster α)} (h : k ∈ annotate config clusters) :
    ∃ bare ∈ clusters, ∃ ordinal : Int,
      k = { bare with recommendation := some (bare.recommend config ordinal) } := by
  obtain ⟨⟨bare, i⟩, hentry, rfl⟩ := List.mem_map.mp h
  exact ⟨bare, List.mem_of_getElem? (List.mk_mem_zipIdx_iff_getElem?.mp hentry), (i : Int) + 1, rfl⟩

/-- Every cluster is annotated. -/
theorem exists_mem_annotate (config : Config α) {clusters : List (Cluster α)} (h : k ∈ clusters) :
    ∃ ordinal : Int,
      { k with recommendation := some (k.recommend config ordinal) } ∈
        annotate config clusters := by
  obtain ⟨i, hi⟩ := List.mem_iff_getElem?.mp h
  exact ⟨(i : Int) + 1, List.mem_map.mpr ⟨(k, i), List.mk_mem_zipIdx_iff_getElem?.mpr hi, rfl⟩⟩

end Cluster

end NearClone
