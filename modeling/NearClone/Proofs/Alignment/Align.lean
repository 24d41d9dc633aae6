import NearClone.Alignment.Align
import NearClone.Proofs.Alignment.Trail

/-!
# Counts of an alignment

An alignment is directed from one of the two lists (`align_eq_or_eq`), so what is known of best
trails carries over to it: it has no more matches than the lists share shapes
(`length_matched_align_le`), no fewer than any common part of their shapes has elements
(`length_le_matched_align`), and no more fine ones than matches (`fine_align_le`).
-/

set_option autoImplicit false
set_option relaxedAutoImplicit false

namespace NearClone.Alignment

open Listing

/-- An alignment is directed from the first list, or is seen from the second one. -/
theorem align_eq_or_eq (ss ts : List Statement) :
    align ss ts = directed ss ts ∨ align ss ts = (directed ts ss).swapped := by
  unfold align
  split
  · exact Or.inr rfl
  · exact Or.inl rfl

@[simp]
theorem length_matched_swapped (a : Alignment) : a.swapped.matched.length = a.matched.length :=
  List.length_map _

/-- The matches of a directed alignment are those of the best trail. -/
theorem length_matched_directed (ss ts : List Statement) :
    (directed ss ts).matched.length = (bestTrail ss.reverse ts.reverse).coarse := by
  rw [coarse_bestTrail]
  exact List.length_reverse

/-- A directed alignment has no more matches than the two lists share shapes. -/
theorem length_matched_directed_le (ss ts : List Statement) :
    (directed ss ts).matched.length ≤ sharedCount (ss.map (·.shape)) (ts.map (·.shape)) := by
  have htrail := coarse_bestTrail_le_sharedCount ss.reverse ts.reverse
  rw [List.map_reverse, List.map_reverse, sharedCount_reverse_left, sharedCount_reverse_right]
    at htrail
  rw [length_matched_directed]
  exact htrail

/-- An alignment has no more matches than the two lists share shapes. -/
theorem length_matched_align_le (ss ts : List Statement) :
    (align ss ts).matched.length ≤ sharedCount (ss.map (·.shape)) (ts.map (·.shape)) := by
  rcases align_eq_or_eq ss ts with h | h
  · rw [h]
    exact length_matched_directed_le ss ts
  · rw [h, length_matched_swapped, sharedCount_comm]
    exact length_matched_directed_le ts ss

/-- A directed alignment has as many matches as any common part of the shapes of the two lists has
elements. -/
theorem length_le_matched_directed {shapes : List String} {ss ts : List Statement}
    (hs : shapes.Sublist (ss.map (·.shape))) (ht : shapes.Sublist (ts.map (·.shape))) :
    shapes.length ≤ (directed ss ts).matched.length := by
  have hsReverse := hs.reverse
  have htReverse := ht.reverse
  rw [← List.map_reverse] at hsReverse htReverse
  rw [length_matched_directed, ← List.length_reverse]
  exact length_le_coarse_bestTrail hsReverse htReverse

/-- An alignment has as many matches as any common part of the shapes of the two lists has
elements. -/
theorem length_le_matched_align {shapes : List String} {ss ts : List Statement}
    (hs : shapes.Sublist (ss.map (·.shape))) (ht : shapes.Sublist (ts.map (·.shape))) :
    shapes.length ≤ (align ss ts).matched.length := by
  rcases align_eq_or_eq ss ts with h | h
  · rw [h]
    exact length_le_matched_directed hs ht
  · rw [h, length_matched_swapped]
    exact length_le_matched_directed ht hs

/-- No more matches of a directed alignment are fine than there are matches. -/
theorem fine_directed_le (ss ts : List Statement) :
    (directed ss ts).fine ≤ (directed ss ts).matched.length := by
  rw [length_matched_directed]
  exact fine_bestTrail_le ss.reverse ts.reverse

/-- No more matches are fine than there are matches. -/
theorem fine_align_le (ss ts : List Statement) :
    (align ss ts).fine ≤ (align ss ts).matched.length := by
  rcases align_eq_or_eq ss ts with h | h
  · rw [h]
    exact fine_directed_le ss ts
  · rw [h, length_matched_swapped]
    exact fine_directed_le ts ss

end NearClone.Alignment
