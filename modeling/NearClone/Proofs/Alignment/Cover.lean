import NearClone.Proofs.Alignment.Order
import NearClone.Proofs.Alignment.Symmetry

/-!
# What an alignment covers

Every position of either list is in one aligned pair or is left without a partner, and only once
(`firsts_align_perm`, `seconds_align_perm`). So an alignment that leaves no position without a
partner is between lists of the same length, and pairs every position with itself
(`aligned_align_eq_diagonal`). Lists of the same shapes are aligned in this way, since all of their
statements are matched (`leftOnly_align_of_shapes_eq`).
-/

set_option autoImplicit false
set_option relaxedAutoImplicit false

namespace NearClone.Alignment

open Listing

/-! ### The positions of gaps -/

/-- The first components of a zip and what the zip leaves over are the whole list. -/
theorem map_fst_zip_append_drop {β γ : Type} (xs : List β) (ys : List γ) :
    (xs.zip ys).map Prod.fst ++ xs.drop ys.length = xs := by
  induction xs generalizing ys with
  | nil => simp
  | cons x xs ih =>
    cases ys with
    | nil => rfl
    | cons y ys => exact congrArg (x :: ·) (ih ys)

/-- The positions of the first list in a gap are paired or left over. -/
theorem Gap.firsts_paired_append (g : Gap) : g.paired.map Prod.fst ++ g.leftOver = g.left :=
  map_fst_zip_append_drop g.left g.right

/-- A stretch of positions up to one of them, that position, and those behind it. -/
theorem range'_append_cons_range' {i a n : ℕ} (hi : i ≤ a) (ha : a < n) :
    List.range' i (a - i) ++ a :: List.range' (a + 1) (n - (a + 1)) = List.range' i (n - i) := by
  have hbehind : a :: List.range' (a + 1) (n - (a + 1)) = List.range' a (n - a) := by
    have hlength : n - a = n - (a + 1) + 1 := by omega
    rw [hlength, List.range'_succ]
  have hsplit := List.range'_append_1 (s := i) (m := a - i) (n := n - a)
  rw [Nat.add_sub_cancel' hi, show a - i + (n - a) = n - i by omega] at hsplit
  rw [hbehind, hsplit]

/-- Every position of the first list is matched, paired within a gap, or left over in one. -/
theorem firsts_weave_perm {n m i j : ℕ} {chain : List (ℕ × ℕ)} (h : Ascends n m i j chain) :
    ((weave n m i j chain).map Prod.fst ++ (gaps n m i j chain).flatMap Gap.leftOver).Perm
      (List.range' i (n - i)) := by
  induction chain generalizing i j with
  | nil =>
    rw [weave, gaps, List.flatMap_singleton, Gap.firsts_paired_append]
    exact .refl _
  | cons p rest ih =>
    obtain ⟨a, b⟩ := p
    obtain ⟨hi, hj, hrest⟩ := h
    have hgap := Gap.firsts_paired_append ⟨i, a, j, b⟩
    have ha : a < n := hrest.le_end.1
    rw [weave, gaps, List.flatMap_cons, List.map_append, List.map_cons,
      ← range'_append_cons_range' hi ha]
    change ((Gap.paired ⟨i, a, j, b⟩).map Prod.fst ++ a :: _ ++
      (Gap.leftOver ⟨i, a, j, b⟩ ++ _)).Perm (Gap.left ⟨i, a, j, b⟩ ++ _)
    -- What is left over in the gap moves in front of the match that ends it.
    rw [← hgap, List.append_assoc, List.append_assoc]
    refine List.Perm.append_left _ ?_
    refine (List.perm_append_comm_assoc _ _ _).trans (List.Perm.append_left _ ?_)
    exact .cons a (ih hrest)

/-! ### The positions of alignments -/

/-- A chain that descends does so when seen from the other side. -/
theorem Descends.swap {n m : ℕ} {chain : List (ℕ × ℕ)} (h : Descends n m chain) :
    Descends m n (chain.map Prod.swap) := by
  induction chain generalizing n m with
  | nil => trivial
  | cons p rest ih => exact ⟨h.2.1, h.1, ih h.2.2⟩

section Trail

variable {n m : ℕ} {trail : Trail} (h : Descends n m trail.chain)

include h

/-- The aligned pairs of a trail are its matches with the pairs between them. -/
theorem aligned_ofTrail : (ofTrail n m trail).aligned = weave n m 0 0 trail.chain.reverse :=
  aligned_eq_of_perm (weave_perm n m 0 0 _) (ascends_weave h.ascends_reverse).pairwise

/-- The aligned pairs of a trail ascend on both sides. -/
theorem pairwise_aligned_ofTrail : (ofTrail n m trail).aligned.Pairwise Before := by
  rw [aligned_ofTrail h]
  exact (ascends_weave h.ascends_reverse).pairwise

/-- Every position of the first list is in one pair of a trail, or has no partner. -/
theorem firsts_ofTrail_perm :
    ((ofTrail n m trail).aligned.map Prod.fst ++ (ofTrail n m trail).leftOnly).Perm
      (List.range n) := by
  rw [aligned_ofTrail h, List.range_eq_range']
  exact firsts_weave_perm h.ascends_reverse

/-- Every position of the second list is in one pair of a trail, or has no partner. -/
theorem seconds_ofTrail_perm :
    ((ofTrail n m trail).aligned.map Prod.snd ++ (ofTrail n m trail).rightOnly).Perm
      (List.range m) := by
  have hfirsts : ((ofTrail m n trail.swapped).aligned.map Prod.fst ++
      (ofTrail m n trail.swapped).leftOnly).Perm (List.range m) := firsts_ofTrail_perm h.swap
  rw [← swapped_ofTrail, aligned_swapped (pairwise_aligned_ofTrail h), List.map_map] at hfirsts
  exact hfirsts

end Trail

/-- The best trail descends from the ends of the two lists, read backwards or forwards. -/
theorem descends_bestTrail_reverse (ss ts : List Statement) :
    Descends ss.length ts.length (bestTrail ss.reverse ts.reverse).chain := by
  have hdescends := descends_bestTrail ss.reverse ts.reverse
  rwa [List.length_reverse, List.length_reverse] at hdescends

/-- Every position of the first list is in one aligned pair, or has no partner. -/
theorem firsts_align_perm (ss ts : List Statement) :
    ((align ss ts).aligned.map Prod.fst ++ (align ss ts).leftOnly).Perm
      (List.range ss.length) := by
  rcases align_eq_or_eq ss ts with h | h
  · rw [h]
    exact firsts_ofTrail_perm (descends_bestTrail_reverse ss ts)
  · rw [h, aligned_swapped (ascends_aligned_directed ts ss).pairwise, List.map_map]
    exact seconds_ofTrail_perm (descends_bestTrail_reverse ts ss)

/-- Every position of the second list is in one aligned pair, or has no partner. -/
theorem seconds_align_perm (ss ts : List Statement) :
    ((align ss ts).aligned.map Prod.snd ++ (align ss ts).rightOnly).Perm
      (List.range ts.length) := by
  have hfirsts := firsts_align_perm ts ss
  rw [align_swap ss ts, aligned_swapped (ascends_aligned_align ss ts).pairwise, List.map_map]
    at hfirsts
  exact hfirsts

/-- Every position of the first list is matched, substituted, or without a partner. -/
theorem length_left_align (ss ts : List Statement) :
    (align ss ts).matched.length + (align ss ts).substituted.length +
      (align ss ts).leftOnly.length = ss.length := by
  have hlength := (firsts_align_perm ss ts).length_eq
  rwa [List.length_append, List.length_map, List.length_range, aligned, length_sortBy,
    List.length_append] at hlength

/-- Every position of the second list is matched, substituted, or without a partner. -/
theorem length_right_align (ss ts : List Statement) :
    (align ss ts).matched.length + (align ss ts).substituted.length +
      (align ss ts).rightOnly.length = ts.length := by
  have hlength := (seconds_align_perm ss ts).length_eq
  rwa [List.length_append, List.length_map, List.length_range, aligned, length_sortBy,
    List.length_append] at hlength

/-! ### Alignments that leave nothing out -/

/-- Every position up to a bound with itself. -/
def diagonalPairs (n : ℕ) : List (ℕ × ℕ) := (List.range n).map fun i ↦ (i, i)

/-- Positions that ascend and are all those up to a bound stand in order. -/
theorem eq_range_of_perm {n : ℕ} {places : List ℕ} (hperm : places.Perm (List.range n))
    (hascends : places.Pairwise (· < ·)) : places = List.range n := by
  refine List.Perm.eq_of_pairwise ?_ hascends List.pairwise_lt_range hperm
  intro i j _ _ hij hji
  exact absurd hji hij.not_gt

/-- Between lists of which no position is left without a partner every position is aligned with
itself. -/
theorem aligned_align_eq_diagonal {ss ts : List Statement} (hleft : (align ss ts).leftOnly = [])
    (hright : (align ss ts).rightOnly = []) :
    ss.length = ts.length ∧ (align ss ts).aligned = diagonalPairs ss.length := by
  have hfirsts := firsts_align_perm ss ts
  have hseconds := seconds_align_perm ss ts
  rw [hleft, List.append_nil] at hfirsts
  rw [hright, List.append_nil] at hseconds
  have hlength : ss.length = ts.length := by
    have hfirst := hfirsts.length_eq
    have hsecond := hseconds.length_eq
    rw [List.length_map, List.length_range] at hfirst hsecond
    exact hfirst.symm.trans hsecond
  have hbefore := (ascends_aligned_align ss ts).pairwise
  have hfirst : (align ss ts).aligned.map Prod.fst = List.range ss.length :=
    eq_range_of_perm hfirsts (List.pairwise_map.mpr (hbefore.imp And.left))
  have hsecond : (align ss ts).aligned.map Prod.snd = List.range ss.length := by
    rw [hlength]
    exact eq_range_of_perm hseconds (List.pairwise_map.mpr (hbefore.imp And.right))
  refine ⟨hlength, ?_⟩
  calc (align ss ts).aligned
      = ((align ss ts).aligned.map Prod.fst).zip ((align ss ts).aligned.map Prod.snd) := by
        rw [List.zip_map']
        exact (List.map_id _).symm
    _ = diagonalPairs ss.length := by
        rw [hfirst, hsecond, diagonalPairs, ← List.zip_map', List.map_id']

/-! ### Lists of equal shapes -/

/-- Lists of equal shapes are aligned with as many matches as they have statements. -/
theorem length_matched_align_of_shapes_eq {ss ts : List Statement}
    (h : ss.map (·.shape) = ts.map (·.shape)) :
    (align ss ts).matched.length = ss.length := by
  have hleft := length_left_align ss ts
  have hcommon : (ss.map (·.shape)).Sublist (ts.map (·.shape)) := h ▸ List.Sublist.refl _
  have hmatched := length_le_matched_align (List.Sublist.refl _) hcommon
  rw [List.length_map] at hmatched
  omega

/-- Between lists of equal shapes no position of the first one is left without a partner. -/
theorem leftOnly_align_of_shapes_eq {ss ts : List Statement}
    (h : ss.map (·.shape) = ts.map (·.shape)) : (align ss ts).leftOnly = [] := by
  have hleft := length_left_align ss ts
  have hmatched := length_matched_align_of_shapes_eq h
  exact List.length_eq_zero_iff.mp (by omega)

/-- Between lists of equal shapes no position of the second one is left without a partner. -/
theorem rightOnly_align_of_shapes_eq {ss ts : List Statement}
    (h : ss.map (·.shape) = ts.map (·.shape)) : (align ss ts).rightOnly = [] := by
  have hleft := leftOnly_align_of_shapes_eq h.symm
  rwa [align_swap ss ts] at hleft

end NearClone.Alignment
