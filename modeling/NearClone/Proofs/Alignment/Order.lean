import NearClone.Proofs.Alignment.Align

/-!
# The order of aligned pairs

The matches of an alignment ascend strictly on both sides, and the pairs of every gap fit in between
(`ascends_weave`). So sorting the aligned pairs by their first positions also sorts them by their
second ones (`ascends_aligned_align`), and the pairs seen from the other side come in the same
order (`aligned_swapped`).
-/

set_option autoImplicit false
set_option relaxedAutoImplicit false

namespace NearClone.Alignment

open Listing

/-! ### Ascending chains -/

/-- The first pair comes before the second on both sides. -/
def Before (p q : ℕ × ℕ) : Prop := p.1 < q.1 ∧ p.2 < q.2

/-- Pairs of positions go up strictly on both sides, from `i` and `j` on and below `n` and `m`. -/
def Ascends (n m : ℕ) : ℕ → ℕ → List (ℕ × ℕ) → Prop
  | i, j, [] => i ≤ n ∧ j ≤ m
  | i, j, (a, b) :: rest => i ≤ a ∧ j ≤ b ∧ Ascends n m (a + 1) (b + 1) rest

namespace Ascends

variable {n m i j : ℕ} {ps : List (ℕ × ℕ)}

/-- A chain may be said to start earlier. -/
theorem mono {i' j' : ℕ} (h : Ascends n m i j ps) (hi : i' ≤ i) (hj : j' ≤ j) :
    Ascends n m i' j' ps := by
  cases ps with
  | nil => exact ⟨hi.trans h.1, hj.trans h.2⟩
  | cons p rest => exact ⟨hi.trans h.1, hj.trans h.2.1, h.2.2⟩

/-- A chain goes on with a pair behind its end. -/
theorem concat {a b : ℕ} (h : Ascends a b i j ps) (ha : a < n) (hb : b < m) :
    Ascends n m i j (ps ++ [(a, b)]) := by
  induction ps generalizing i j with
  | nil => exact ⟨h.1, h.2, ha, hb⟩
  | cons p rest ih => exact ⟨h.1, h.2.1, ih h.2.2⟩

/-- A chain starts within its bounds. -/
theorem le_end (h : Ascends n m i j ps) : i ≤ n ∧ j ≤ m := by
  induction ps generalizing i j with
  | nil => exact h
  | cons p rest ih =>
    have hrest := ih h.2.2
    have hi : i ≤ p.1 := h.1
    have hj : j ≤ p.2 := h.2.1
    omega

/-- Every pair of a chain lies within its bounds. -/
theorem mem_bounds {p : ℕ × ℕ} (h : Ascends n m i j ps) (hp : p ∈ ps) :
    i ≤ p.1 ∧ j ≤ p.2 ∧ p.1 < n ∧ p.2 < m := by
  induction ps generalizing i j with
  | nil => simp at hp
  | cons q rest ih =>
    obtain ⟨hi, hj, hrest⟩ := h
    rcases List.mem_cons.mp hp with rfl | hp
    · exact ⟨hi, hj, hrest.le_end⟩
    · have hbounds := ih hrest hp
      omega

/-- A chain seen from the other side. -/
theorem swap (h : Ascends n m i j ps) : Ascends m n j i (ps.map Prod.swap) := by
  induction ps generalizing i j with
  | nil => exact ⟨h.2, h.1⟩
  | cons p rest ih => exact ⟨h.2.1, h.1, ih h.2.2⟩

/-- The pairs of a chain come one before the other on both sides. -/
theorem pairwise (h : Ascends n m i j ps) : ps.Pairwise Before := by
  induction ps generalizing i j with
  | nil => exact List.Pairwise.nil
  | cons p rest ih =>
    refine List.Pairwise.cons ?_ (ih h.2.2)
    intro q hq
    have hbounds := h.2.2.mem_bounds hq
    exact ⟨hbounds.1, hbounds.2.1⟩

end Ascends

/-- A chain that descends is one that ascends when it is read backwards. -/
theorem Descends.ascends_reverse {n m : ℕ} {chain : List (ℕ × ℕ)} (h : Descends n m chain) :
    Ascends n m 0 0 chain.reverse := by
  induction chain generalizing n m with
  | nil => exact ⟨Nat.zero_le n, Nat.zero_le m⟩
  | cons p rest ih =>
    rw [List.reverse_cons]
    exact (ih h.2.2).concat h.1 h.2.1

/-! ### Matches and the pairs between them -/

/-- Positions at the same place of two stretches ascend up to what follows the stretches. -/
theorem ascends_zip_range' {n m : ℕ} {rest : List (ℕ × ℕ)} (k l i j : ℕ)
    (h : Ascends n m (i + k) (j + l) rest) :
    Ascends n m i j ((List.range' i k).zip (List.range' j l) ++ rest) := by
  induction k generalizing i j l with
  | zero => exact h.mono (Nat.le_refl i) (Nat.le_add_right j l)
  | succ k ih =>
    cases l with
    | zero => exact h.mono (Nat.le_add_right i (k + 1)) (Nat.le_refl j)
    | succ l =>
      refine ⟨Nat.le_refl i, Nat.le_refl j, ih l (i + 1) (j + 1) ?_⟩
      rw [Nat.add_right_comm i 1 k, Nat.add_right_comm j 1 l]
      exact h

/-- The pairs of a gap ascend up to what follows the gap. -/
theorem Ascends.paired_append {n m i j a b : ℕ} {rest : List (ℕ × ℕ)} (hi : i ≤ a) (hj : j ≤ b)
    (h : Ascends n m a b rest) : Ascends n m i j (Gap.paired ⟨i, a, j, b⟩ ++ rest) := by
  refine ascends_zip_range' (a - i) (b - j) i j ?_
  rw [Nat.add_sub_cancel' hi, Nat.add_sub_cancel' hj]
  exact h

/-- The matches of a chain with the pairs of the gaps between them, in order of position. -/
def weave (n m : ℕ) : ℕ → ℕ → List (ℕ × ℕ) → List (ℕ × ℕ)
  | i, j, [] => Gap.paired ⟨i, n, j, m⟩
  | i, j, (a, b) :: rest => Gap.paired ⟨i, a, j, b⟩ ++ (a, b) :: weave n m (a + 1) (b + 1) rest

/-- Weaving only changes the order of the pairs. -/
theorem weave_perm (n m i j : ℕ) (chain : List (ℕ × ℕ)) :
    (weave n m i j chain).Perm (chain ++ (gaps n m i j chain).flatMap Gap.paired) := by
  induction chain generalizing i j with
  | nil =>
    rw [gaps, weave, List.flatMap_singleton, List.nil_append]
  | cons p rest ih =>
    obtain ⟨a, b⟩ := p
    rw [gaps, weave, List.flatMap_cons, List.cons_append]
    refine List.perm_middle.trans (List.Perm.cons (a, b) ?_)
    exact ((ih (a + 1) (b + 1)).append_left _).trans (List.perm_append_comm_assoc _ _ _)

/-- The matches of an ascending chain ascend together with the pairs between them. -/
theorem ascends_weave {n m i j : ℕ} {chain : List (ℕ × ℕ)} (h : Ascends n m i j chain) :
    Ascends n m i j (weave n m i j chain) := by
  induction chain generalizing i j with
  | nil =>
    have hend : Ascends n m n m [] := ⟨Nat.le_refl n, Nat.le_refl m⟩
    have hpaired := hend.paired_append h.1 h.2
    rw [List.append_nil] at hpaired
    exact hpaired
  | cons p rest ih =>
    have hmatch : Ascends n m p.1 p.2 (p :: weave n m (p.1 + 1) (p.2 + 1) rest) :=
      ⟨Nat.le_refl p.1, Nat.le_refl p.2, ih h.2.2⟩
    exact hmatch.paired_append h.1 h.2.1

/-! ### Sorting -/

/-- One pair is sorted before another by the first positions, then by the second ones. -/
theorem isLE_comparePairs (p q : ℕ × ℕ) :
    (comparePairs p q).isLE = true ↔ p.1 < q.1 ∨ p.1 = q.1 ∧ p.2 ≤ q.2 := by
  rw [comparePairs, compareLex, Ordering.isLE_then_iff_or]
  simp only [compareOn]
  rw [Nat.compare_eq_lt, Nat.compare_eq_eq, Nat.isLE_compare]

/-- Pairs of positions are sorted by a transitive comparison. -/
instance transCmp_comparePairs : Std.TransCmp comparePairs :=
  inferInstanceAs (Std.TransCmp (compareLex (compareOn Prod.fst) (compareOn Prod.snd)))

/-- Aligned pairs that can be put in an order which ascends on both sides come in that order. -/
theorem aligned_eq_of_perm {a : Alignment} {ps : List (ℕ × ℕ)}
    (hperm : ps.Perm (a.matched ++ a.substituted)) (hpairwise : ps.Pairwise Before) :
    a.aligned = ps := by
  refine List.Perm.eq_of_pairwise ?_ (pairwise_sortBy comparePairs _) ?_
    ((sortBy_perm comparePairs _).trans hperm.symm)
  · intro p q _ _ hpq hqp
    rw [isLE_comparePairs] at hpq hqp
    exact Prod.ext (by omega) (by omega)
  · refine hpairwise.imp ?_
    intro p q hpq
    rw [isLE_comparePairs]
    exact Or.inl hpq.1

/-- Aligned pairs that ascend on both sides come in the same order when seen from the second
list. -/
theorem aligned_swapped {a : Alignment} (h : a.aligned.Pairwise Before) :
    a.swapped.aligned = a.aligned.map Prod.swap := by
  refine aligned_eq_of_perm ?_ ?_
  · have hperm : (a.aligned.map Prod.swap).Perm ((a.matched ++ a.substituted).map Prod.swap) :=
      (sortBy_perm comparePairs _).map Prod.swap
    rw [List.map_append] at hperm
    exact hperm
  · rw [List.pairwise_map]
    refine h.imp ?_
    intro p q hpq
    exact ⟨hpq.2, hpq.1⟩

/-- The aligned pairs of a directed alignment are its matches with the pairs between them. -/
theorem aligned_directed (ss ts : List Statement) :
    (directed ss ts).aligned =
      weave ss.length ts.length 0 0 (bestTrail ss.reverse ts.reverse).chain.reverse := by
  have hdescends := descends_bestTrail ss.reverse ts.reverse
  rw [List.length_reverse, List.length_reverse] at hdescends
  exact aligned_eq_of_perm (weave_perm _ _ 0 0 _) (ascends_weave hdescends.ascends_reverse).pairwise

/-- The aligned pairs of a directed alignment ascend on both sides, within the two lists. -/
theorem ascends_aligned_directed (ss ts : List Statement) :
    Ascends ss.length ts.length 0 0 (directed ss ts).aligned := by
  have hdescends := descends_bestTrail ss.reverse ts.reverse
  rw [List.length_reverse, List.length_reverse] at hdescends
  rw [aligned_directed]
  exact ascends_weave hdescends.ascends_reverse

/-- The aligned pairs of an alignment ascend on both sides, within the two lists. -/
theorem ascends_aligned_align (ss ts : List Statement) :
    Ascends ss.length ts.length 0 0 (align ss ts).aligned := by
  rcases align_eq_or_eq ss ts with h | h
  · rw [h]
    exact ascends_aligned_directed ss ts
  · rw [h, aligned_swapped (ascends_aligned_directed ts ss).pairwise]
    exact (ascends_aligned_directed ts ss).swap

end NearClone.Alignment
