import NearClone.Proofs.Alignment.Cover
import NearClone.Proofs.Alignment.Optimal
import NearClone.Proofs.EditDistance.Script

/-!
# Matches and edits

The longest chain of matches between two lists and the edit distance of their shapes come from
different tables, and each bounds the other. A common part of the shapes that the edits leave alone
can be matched, so what the longer list has beyond its matches is edited
(`max_length_le_matched_add_distance`). An alignment is also a way to edit: it keeps the matches,
replaces what it substitutes, and deletes or inserts what has no partner (`distance_le_edits`). Both
bounds are tight where the lists have equal shapes (`distance_eq_zero_iff_matched`).
-/

set_option autoImplicit false
set_option relaxedAutoImplicit false

namespace NearClone.Alignment

open EditDistance

/-- What the longer list has beyond the edits is matched. -/
theorem max_length_le_matched_add_distance (ss ts : List Statement) :
    max ss.length ts.length ≤
      (align ss ts).matched.length + distance (ss.map (·.shape)) (ts.map (·.shape)) := by
  obtain ⟨shapes, hs, ht, hlength⟩ :=
    exists_sublist_of_distance (ss.map (·.shape)) (ts.map (·.shape))
  have hmatched := length_le_matched_align hs ht
  rw [List.length_map, List.length_map] at hlength
  omega

/-! ### Alignments as edits -/

/-- How many edits lead over gaps: pairs are replaced, and positions without a partner are deleted
or inserted. -/
def editCount (gs : List Gap) : ℕ :=
  (gs.flatMap Gap.paired).length + (gs.flatMap Gap.leftOver).length +
    (gs.flatMap Gap.rightOver).length

/-- A gap takes as many edits as its longer side has positions. -/
theorem editCount_cons (i a j b : ℕ) (gs : List Gap) :
    editCount (⟨i, a, j, b⟩ :: gs) = max (a - i) (b - j) + editCount gs := by
  simp only [editCount, List.flatMap_cons, List.length_append, Gap.paired, Gap.leftOver,
    Gap.rightOver, Gap.left, Gap.right, List.length_zip, List.length_drop, List.length_range']
  omega

/-- From a position on, a list goes up to an element and then on behind it. -/
theorem drop_eq_take_append_cons {ss : List Statement} {i a : ℕ} {s : Statement} (hi : i ≤ a)
    (hs : ss[a]? = some s) : ss.drop i = (ss.drop i).take (a - i) ++ s :: ss.drop (a + 1) := by
  obtain ⟨ha, rfl⟩ := List.getElem?_eq_some_iff.mp hs
  have hbehind : (ss.drop i).drop (a - i) = ss[a] :: ss.drop (a + 1) := by
    rw [List.drop_drop, Nat.add_sub_cancel' hi, List.drop_eq_getElem_cons ha]
  rw [← hbehind, List.take_append_drop]

/-- To keep the matches of a chain and edit its gaps is no shorter than the edit distance. -/
theorem distance_drop_le_editCount {ss ts : List Statement} {i j : ℕ} {chain : List (ℕ × ℕ)}
    (h : Ascends ss.length ts.length i j chain) (hmatches : ∀ p ∈ chain, Matches ss ts p) :
    distance ((ss.drop i).map (·.shape)) ((ts.drop j).map (·.shape)) ≤
      editCount (gaps ss.length ts.length i j chain) := by
  induction chain generalizing i j with
  | nil =>
    have hmax := distance_le_max_length ((ss.drop i).map (·.shape)) ((ts.drop j).map (·.shape))
    rw [List.length_map, List.length_map, List.length_drop, List.length_drop] at hmax
    rw [gaps, editCount_cons]
    exact hmax
  | cons p rest ih =>
    obtain ⟨a, b⟩ := p
    obtain ⟨hi, hj, hrest⟩ := h
    obtain ⟨⟨s, t, hs, ht, hshape⟩, hmatchesRest⟩ := List.forall_mem_cons.mp hmatches
    have hsplit := distance_append_cons_le (((ss.drop i).take (a - i)).map (·.shape))
      ((ss.drop (a + 1)).map (·.shape)) (((ts.drop j).take (b - j)).map (·.shape))
      ((ts.drop (b + 1)).map (·.shape)) s.shape
    have hbehind := ih hrest hmatchesRest
    rw [List.length_map, List.length_map, List.length_take, List.length_take] at hsplit
    rw [drop_eq_take_append_cons hi hs, drop_eq_take_append_cons hj ht, List.map_append,
      List.map_append, List.map_cons, List.map_cons, ← hshape, gaps, editCount_cons]
    omega

/-- The substitutions of an alignment and its positions without a partner are edits that turn one
list into the other. -/
theorem distance_le_edits (ss ts : List Statement) :
    distance (ss.map (·.shape)) (ts.map (·.shape)) ≤
      (align ss ts).substituted.length + (align ss ts).leftOnly.length +
        (align ss ts).rightOnly.length := by
  have hdirected (ss ts : List Statement) :
      distance (ss.map (·.shape)) (ts.map (·.shape)) ≤
        (directed ss ts).substituted.length + (directed ss ts).leftOnly.length +
          (directed ss ts).rightOnly.length :=
    distance_drop_le_editCount (descends_bestTrail_reverse ss ts).ascends_reverse
      (optimal_directed ss ts).isChain.forall_matches
  rcases align_eq_or_eq ss ts with h | h
  · rw [h]
    exact hdirected ss ts
  · have hback := hdirected ts ss
    rw [h, distance_comm]
    simp only [swapped, List.length_map]
    omega

/-! ### Lists without an edit -/

/-- Nothing is edited exactly if all statements of the longer list are matched. -/
theorem distance_eq_zero_iff_matched (ss ts : List Statement) :
    distance (ss.map (·.shape)) (ts.map (·.shape)) = 0 ↔
      (align ss ts).matched.length = max ss.length ts.length := by
  have hleft := length_left_align ss ts
  have hright := length_right_align ss ts
  have hlow := max_length_le_matched_add_distance ss ts
  have hhigh := distance_le_edits ss ts
  omega

end NearClone.Alignment
