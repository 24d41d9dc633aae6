import NearClone.Proofs.Forest.Compress

/-!
# Joining two trees

Of two roots one is hung below the other, which is then of greater rank (`hangs_link`). All indices
below the first root get the second one (`Hangs.root_eq`), and the others keep theirs. So a union
makes one set of two and leaves the others alone (`Ranked.root_union_eq_iff`).
-/

set_option autoImplicit false
set_option relaxedAutoImplicit false

namespace NearClone.Forest

variable {f g : Forest} {a b i j low top : ℕ}

/-! ### Hanging one root below another -/

/-- The second forest is the first one with `low` hung below `top`, which is of greater rank
afterwards. -/
structure Hangs (f g : Forest) (low top : ℕ) : Prop where
  size_eq : g.size = f.size
  size_rank_eq : g.rank.size = f.rank.size
  parentOf_eq : ∀ k, g.parentOf k = if k = low then top else f.parentOf k
  rankOf_eq : ∀ k, k ≠ top → g.rankOf k = f.rankOf k
  rankOf_le : f.rankOf top ≤ g.rankOf top
  rankOf_lt : f.rankOf low < g.rankOf top

namespace Hangs

/-- Ranks never fall. -/
theorem rankOf_le_rankOf (hfg : Hangs f g low top) (k : ℕ) : f.rankOf k ≤ g.rankOf k := by
  by_cases hk : k = top
  · rw [hk]
    exact hfg.rankOf_le
  · exact (hfg.rankOf_eq k hk).ge

/-- Hanging one root below another one keeps a forest ranked. -/
theorem ranked (hfg : Hangs f g low top) (hf : f.Ranked) (htop : f.IsRoot top) (hne : low ≠ top) :
    g.Ranked where
  size_rank := by rw [hfg.size_rank_eq, hf.size_rank, hfg.size_eq]
  parentOf_lt := by
    intro k hk
    rw [hfg.size_eq] at hk
    rw [hfg.size_eq, hfg.parentOf_eq]
    by_cases hlow : k = low
    · rw [if_pos hlow]
      exact htop.lt_size
    · rw [if_neg hlow]
      exact hf.parentOf_lt k hk
  rankOf_lt := by
    intro k hk
    rw [hfg.parentOf_eq] at hk ⊢
    by_cases hlow : k = low
    · rw [if_pos hlow, hlow, hfg.rankOf_eq low hne]
      exact hfg.rankOf_lt
    · rw [if_neg hlow] at hk ⊢
      have hmoves : k ≠ top := by
        rintro rfl
        exact hk htop.parentOf_eq
      rw [hfg.rankOf_eq k hmoves]
      exact (hf.rankOf_lt k hk).trans_le (hfg.rankOf_le_rankOf _)

/-- Exactly the indices whose root is hung below another one change their root. -/
theorem root_eq (hfg : Hangs f g low top) (hf : f.Ranked) (hg : g.Ranked)
    (hlow : f.IsRoot low) (htop : f.IsRoot top) (hne : low ≠ top) (k : ℕ) :
    g.root k = if f.root k = low then top else f.root k := by
  refine hg.root_eq_of_label (fun k ↦ if f.root k = low then top else f.root k) ?_ ?_ k
  · intro k
    rw [hfg.parentOf_eq]
    by_cases hk : k = low
    · rw [if_pos hk, hk, hf.root_eq_self htop.parentOf_eq, hf.root_eq_self hlow.parentOf_eq,
        if_neg (Ne.symm hne), if_pos rfl]
    · rw [if_neg hk, hf.root_parentOf]
  · intro k hself
    rw [hfg.parentOf_eq] at hself
    by_cases hk : k = low
    · rw [if_pos hk] at hself
      exact absurd (hk.symm.trans hself.symm) hne
    · rw [if_neg hk] at hself
      rw [hf.root_eq_self hself, if_neg hk]

end Hangs

/-! ### Links by rank -/

/-- The forest with another rank of an index. -/
def setRank (f : Forest) (i n : ℕ) : Forest := { f with rank := f.rank.setIfInBounds i n }

/-- To give an index another rank changes no other one. -/
theorem rankOf_setRank (hi : i < f.rank.size) (n k : ℕ) :
    (f.setRank i n).rankOf k = if k = i then n else f.rankOf k := by
  unfold rankOf setRank
  rw [Array.getElem?_setIfInBounds]
  by_cases hk : k = i
  · rw [if_pos hk.symm, if_pos hi, if_pos hk, Option.getD_some]
  · rw [if_neg (Ne.symm hk), if_neg hk]

/-- An index of lower rank is hung without further ado. -/
theorem hangs_setParent (hlow : low < f.size) (hrank : f.rankOf low < f.rankOf top) :
    Hangs f (f.setParent low top) low top where
  size_eq := size_setParent f low top
  size_rank_eq := rfl
  parentOf_eq := parentOf_setParent hlow top
  rankOf_eq := fun _ _ ↦ rfl
  rankOf_le := le_rfl
  rankOf_lt := hrank

/-- An index of equal rank is hung below one whose rank grows. -/
theorem hangs_setParent_setRank (hlow : low < f.size) (htop : top < f.rank.size)
    (hrank : f.rankOf top = f.rankOf low) :
    Hangs f ((f.setParent low top).setRank top (f.rankOf top + 1)) low top := by
  have hrankOf := rankOf_setRank (f := f.setParent low top) htop (f.rankOf top + 1)
  constructor
  · exact size_setParent f low top
  · exact Array.size_setIfInBounds
  · exact parentOf_setParent hlow top
  · intro k hk
    rw [hrankOf, if_neg hk, rankOf_setParent]
  · rw [hrankOf, if_pos rfl]
    exact Nat.le_succ _
  · rw [hrankOf, if_pos rfl, ← hrank]
    exact Nat.lt_succ_self _

namespace Ranked

section Link

variable (hf : f.Ranked) (ha : f.IsRoot a) (hb : f.IsRoot b)

include hf ha hb

/-- Of two roots that differ one is hung below the other. -/
theorem hangs_link (hne : a ≠ b) : Hangs f (f.link a b) a b ∨ Hangs f (f.link a b) b a := by
  unfold Forest.link
  rw [if_neg hne]
  by_cases hlt : f.rankOf a < f.rankOf b
  · left
    simp only [if_pos hlt, if_neg hlt.ne']
    exact hangs_setParent ha.lt_size hlt
  · right
    simp only [if_neg hlt]
    by_cases heq : f.rankOf a = f.rankOf b
    · rw [if_pos heq]
      exact hangs_setParent_setRank hb.lt_size (ha.lt_size.trans_eq hf.size_rank.symm) heq
    · rw [if_neg heq]
      exact hangs_setParent hb.lt_size (by omega)

/-- To link two roots keeps a forest ranked. -/
theorem link : (f.link a b).Ranked := by
  by_cases hab : a = b
  · rw [Forest.link, if_pos hab]
    exact hf
  · rcases hf.hangs_link ha hb hab with hhangs | hhangs
    · exact hhangs.ranked hf hb hab
    · exact hhangs.ranked hf ha (Ne.symm hab)

/-- To link two roots makes one set of two. -/
theorem root_link_eq_iff (k l : ℕ) :
    (f.link a b).root k = (f.link a b).root l ↔
      f.root k = f.root l ∨ (f.root k = a ∧ f.root l = b) ∨ (f.root k = b ∧ f.root l = a) := by
  have hlink : (f.link a b).Ranked := hf.link ha hb
  by_cases hab : a = b
  · rw [Forest.link, if_pos hab]
    omega
  · rcases hf.hangs_link ha hb hab with hhangs | hhangs
    · rw [hhangs.root_eq hf hlink ha hb hab, hhangs.root_eq hf hlink ha hb hab]
      split <;> split <;> omega
    · have hne : b ≠ a := Ne.symm hab
      rw [hhangs.root_eq hf hlink hb ha hne, hhangs.root_eq hf hlink hb ha hne]
      split <;> split <;> omega

end Link

/-! ### Unions -/

section Union

variable (hf : f.Ranked) (hi : i < f.size) (hj : j < f.size)

include hf hi

/-- A union links the roots of its two indices. -/
theorem union_eq_link (j : ℕ) :
    f.union i j = ((f.compress i).compress j).link (f.root i) (f.root j) := by
  unfold Forest.union
  rw [(hf.compresses_compress hi).root_eq hf]

include hj

/-- Both paths of a union are shortened before the roots are linked. -/
theorem compresses_compress_compress : Compresses f ((f.compress i).compress j) := by
  have hfirst : Compresses f (f.compress i) := hf.compresses_compress hi
  refine hfirst.trans hf ((hfirst.ranked hf).compresses_compress ?_)
  rwa [hfirst.size_eq]

/-- A union keeps a forest ranked. -/
theorem union : (f.union i j).Ranked := by
  have hboth := hf.compresses_compress_compress hi hj
  rw [hf.union_eq_link hi]
  exact (hboth.ranked hf).link (hboth.isRoot_root hf hi) (hboth.isRoot_root hf hj)

/-- A union makes one set of two and leaves the others alone. -/
theorem root_union_eq_iff (k l : ℕ) :
    (f.union i j).root k = (f.union i j).root l ↔
      f.root k = f.root l ∨ (f.root k = f.root i ∧ f.root l = f.root j) ∨
        (f.root k = f.root j ∧ f.root l = f.root i) := by
  have hboth := hf.compresses_compress_compress hi hj
  have hlink := (hboth.ranked hf).root_link_eq_iff (hboth.isRoot_root hf hi)
    (hboth.isRoot_root hf hj) k l
  rw [hboth.root_eq hf, hboth.root_eq hf] at hlink
  rw [hf.union_eq_link hi]
  exact hlink

end Union

end Ranked

end NearClone.Forest
