import NearClone.Proofs.Alignment.Edits
import NearClone.Proofs.Similarity.Scores

/-!
# What scores count

The scores of a comparison are made of three counts: the matches of the alignment, the fine ones
among them, and the edits between the shapes. Matches and edits bound each other, and so the share
of statements that need no edit is no larger than the share of those that are matched
(`matches_bound_edits`). The direction of an alignment may decide which of two equally good chains
is taken, and with it kinds and texts. It does not change the counts, since either chain is worth
the most (`Optimal.counts_eq`). So the scores are the same for all fragments of one outline
(`scores_compare_of_sameOutline`).
-/

set_option autoImplicit false
set_option relaxedAutoImplicit false

namespace NearClone

namespace Alignment

/-- Two optimal alignments of two lists have as many matches, and as many fine ones. -/
theorem Optimal.counts_eq {ss ts : List Statement} {a b : Alignment} (ha : Optimal ss ts a)
    (hb : Optimal ss ts b) : a.matched.length = b.matched.length ∧ a.fine = b.fine := by
  have hab := hb.worth_le a.matched ha.isChain
  have hba := ha.worth_le b.matched hb.isChain
  rw [worth, ← ha.fine_eq] at hab
  rw [worth, ← hb.fine_eq] at hba
  exact Prod.ext_iff.mp (toLex.injective (le_antisymm hab hba))

/-- An alignment has as many matches, and as many fine ones, as the one that is directed from the
first list. -/
theorem counts_align (ss ts : List Statement) :
    (align ss ts).matched.length = (directed ss ts).matched.length ∧
      (align ss ts).fine = (directed ss ts).fine := by
  rcases align_eq_or_eq ss ts with h | h
  · rw [h]
    exact ⟨rfl, rfl⟩
  · rw [h]
    exact (optimal_directed ts ss).swapped.counts_eq (optimal_directed ss ts)

end Alignment

namespace Similarity

/-! ### Matches against edits -/

/-- The share of statements that need no edit is no larger than the share of those matched. -/
theorem levenshtein_compare_le_lcs (w : Weights ℚ) (f g : Fragment) :
    (compare w f g).levenshtein ≤ (compare w f g).lcs := by
  by_cases h : max f.length g.length = 0
  · simp only [compare, if_pos h]
    exact le_rfl
  · have hpos : (0 : ℚ) < (max f.length g.length : ℕ) := by exact_mod_cast Nat.pos_of_ne_zero h
    have hbound : ((max f.length g.length : ℕ) : ℚ) ≤
        (Alignment.align f.statements g.statements).matched.length +
          EditDistance.distance f.shapes g.shapes := by
      exact_mod_cast Alignment.max_length_le_matched_add_distance f.statements g.statements
    have hshares : 1 - (EditDistance.distance f.shapes g.shapes : ℚ) /
          (max f.length g.length : ℕ) ≤
        ((Alignment.align f.statements g.statements).matched.length : ℚ) /
          (max f.length g.length : ℕ) := by
      rw [sub_le_iff_le_add, ← add_div]
      exact (one_le_div₀ hpos).mpr hbound
    simp only [compare, if_neg h]
    exact Number.roundRat_le_roundRat places hshares

/-- Matches and edits bound each other. What the longer list has beyond its matches is edited, and
there are no more edits than substitutions and positions without a partner. So fewer statements need
no edit than are matched, and the shapes are equal, nothing is edited, and all statements are
matched, in the same cases. -/
theorem matches_bound_edits :
    (∀ ss ts : List Statement,
      let alignment := Alignment.align ss ts
      let edits := EditDistance.distance (ss.map (·.shape)) (ts.map (·.shape))
      max ss.length ts.length ≤ alignment.matched.length + edits ∧
        edits ≤ alignment.substituted.length + alignment.leftOnly.length +
          alignment.rightOnly.length ∧
        (ss.map (·.shape) = ts.map (·.shape) ↔ edits = 0) ∧
        (edits = 0 ↔ alignment.matched.length = max ss.length ts.length)) ∧
    ∀ (w : Weights ℚ) (f g : Fragment), (compare w f g).levenshtein ≤ (compare w f g).lcs :=
  ⟨fun ss ts ↦ ⟨Alignment.max_length_le_matched_add_distance ss ts,
    Alignment.distance_le_edits ss ts, EditDistance.distance_eq_zero_iff.symm,
    Alignment.distance_eq_zero_iff_matched ss ts⟩, levenshtein_compare_le_lcs⟩

/-! ### Fragments of one outline -/

variable {α : Type} [Scalar α]

/-- The structural score is made of the numbers of matches and of fine ones. -/
theorem structuralScore_congr {a b : Alignment}
    (h : a.matched.length = b.matched.length ∧ a.fine = b.fine) :
    (structuralScore a : α) = structuralScore b := by
  simp only [structuralScore, List.isEmpty_iff_length_eq_zero, h.1, h.2]

/-- Scores see nothing but outlines: fragments that have the same shapes and fine shapes, statement
by statement, have the same scores, whatever their kinds, texts, slots, hints and places are. -/
theorem scores_compare_of_sameOutline (w : Weights α) {f f' g g' : Fragment}
    (hf : f.SameOutline f') (hg : g.SameOutline g') :
    (compare w f' g').lcs = (compare w f g).lcs ∧
      (compare w f' g').levenshtein = (compare w f g).levenshtein ∧
      (compare w f' g').structural = (compare w f g).structural ∧
      (compare w f' g').overall = (compare w f g).overall := by
  have hcounts : (Alignment.align f'.statements g'.statements).matched.length =
        (Alignment.align f.statements g.statements).matched.length ∧
      (Alignment.align f'.statements g'.statements).fine =
        (Alignment.align f.statements g.statements).fine := by
    rw [(Alignment.counts_align _ _).1, (Alignment.counts_align _ _).2,
      (Alignment.counts_align f.statements _).1, (Alignment.counts_align f.statements _).2,
      Alignment.directed_congr hf hg]
    exact ⟨rfl, rfl⟩
  by_cases h : max f.length g.length = 0
  · simp only [compare, ← hf.length_eq, ← hg.length_eq, if_pos h, and_self]
  · simp only [compare, ← hf.length_eq, ← hg.length_eq, ← hf.shapes_eq, ← hg.shapes_eq, if_neg h,
      hcounts.1, structuralScore_congr hcounts, and_self]

/-- A call before a loop and two calls, with kinds and texts by which the calls come first, and with
others by which the loop does, so that the direction of the alignment turns around. -/
theorem scores_compare_of_sameOutline_turned :
    let loop : Fragment :=
      { statements := [{ shape := "call", kind := "expression", text := "b" },
          { shape := "loop", kind := "while" }]
        location := ⟨"main", ⟨1, 2, 1, 1⟩⟩ }
    let loop' : Fragment :=
      { statements := [{ shape := "call", kind := "assignment", slots := [⟨.literal, "1"⟩] },
          { shape := "loop", kind := "for", treeShape := "loop" }]
        location := ⟨"other", ⟨7, 9, 1, 1⟩⟩
        hints := [("b", "int")] }
    let calls : Fragment :=
      { statements := [{ shape := "call", kind := "expression", text := "a" },
          { shape := "call", kind := "expression" }]
        location := ⟨"main", ⟨11, 12, 1, 1⟩⟩ }
    loop.SameOutline loop' ∧ calls.SameOutline calls ∧
      (Statement.compareLists calls.statements loop.statements).isLT = true ∧
      (Statement.compareLists calls.statements loop'.statements).isLT = false ∧
      let scored : Similarity ℚ := compare Weights.balanced loop calls
      let scored' : Similarity ℚ := compare Weights.balanced loop' calls
      scored.lcs = 1 / 2 ∧ scored'.lcs = scored.lcs ∧ scored'.levenshtein = scored.levenshtein ∧
        scored'.structural = scored.structural ∧ scored'.overall = scored.overall := by
  intro loop loop' calls
  have hloop : loop.SameOutline loop' := rfl
  have hcalls : calls.SameOutline calls := rfl
  refine ⟨hloop, hcalls, by decide, by decide, by decide +kernel, ?_⟩
  exact scores_compare_of_sameOutline Weights.balanced hloop hcalls

end Similarity

end NearClone
