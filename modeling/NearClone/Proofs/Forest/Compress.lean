import NearClone.Proofs.Forest.Root

/-!
# Shortening paths

To look up a root is to hang indices on the way directly below it. The walk that does so comes to an
end (`Ranked.shortens_compress`) although it changes the links it has just followed, since ranks
stay as they are. It leaves a forest in which every index hangs below its old parent or below its
root (`Ranked.compresses_compress`), and such a forest has the same roots (`Compresses.root_eq`).
-/

set_option autoImplicit false
set_option relaxedAutoImplicit false

namespace NearClone.Forest

variable {f g h : Forest} {i top : ℕ}

/-! ### Links that skip to the root -/

/-- A forest with the same ranks where every index hangs below its old parent or below its root. -/
structure Compresses (f g : Forest) : Prop where
  rank_eq : g.rank = f.rank
  size_eq : g.size = f.size
  parentOf_eq_or : ∀ k, g.parentOf k = f.parentOf k ∨ g.parentOf k = f.root k

namespace Compresses

theorem refl (f : Forest) : Compresses f f := ⟨rfl, rfl, fun _ ↦ Or.inl rfl⟩

/-- Ranks are those of before. -/
theorem rankOf_eq (hfg : Compresses f g) (k : ℕ) : g.rankOf k = f.rankOf k := by
  rw [rankOf, rankOf, hfg.rank_eq]

/-- The indices of greater rank are those of before. -/
theorem above_eq (hfg : Compresses f g) (k : ℕ) : g.above k = f.above k := by
  ext l
  rw [mem_above, mem_above, hfg.size_eq, hfg.rankOf_eq, hfg.rankOf_eq]

/-- Ranks grow along links that skip. -/
theorem ranked (hf : f.Ranked) (hfg : Compresses f g) : g.Ranked where
  size_rank := by rw [hfg.rank_eq, hfg.size_eq, hf.size_rank]
  parentOf_lt := by
    intro k hk
    rw [hfg.size_eq] at hk ⊢
    rcases hfg.parentOf_eq_or k with hparent | hroot
    · rw [hparent]
      exact hf.parentOf_lt k hk
    · rw [hroot]
      exact hf.root_lt hk
  rankOf_lt := by
    intro k hk
    rw [hfg.rankOf_eq, hfg.rankOf_eq]
    rcases hfg.parentOf_eq_or k with hparent | hroot
    · rw [hparent] at hk ⊢
      exact hf.rankOf_lt k hk
    · rw [hroot] at hk ⊢
      exact hf.rankOf_lt_rankOf_root hk

/-- Links that skip lead to the same roots. -/
theorem root_eq (hf : f.Ranked) (hfg : Compresses f g) (k : ℕ) : g.root k = f.root k := by
  refine (hfg.ranked hf).root_eq_of_label f.root ?_ ?_ k
  · intro k
    rcases hfg.parentOf_eq_or k with hparent | hroot
    · rw [hparent, hf.root_parentOf]
    · rw [hroot, hf.root_root]
  · intro k hself
    rcases hfg.parentOf_eq_or k with hparent | hroot
    · exact hf.root_eq_self (hparent.symm.trans hself)
    · exact hroot.symm.trans hself

/-- Links that skip leave every root where it was. -/
theorem isRoot_root (hf : f.Ranked) (hfg : Compresses f g) (hi : i < f.size) :
    g.IsRoot (f.root i) := by
  rw [← hfg.root_eq hf]
  exact (hfg.ranked hf).isRoot_root (hi.trans_eq hfg.size_eq.symm)

theorem trans (hf : f.Ranked) (hfg : Compresses f g) (hgh : Compresses g h) : Compresses f h where
  rank_eq := hgh.rank_eq.trans hfg.rank_eq
  size_eq := hgh.size_eq.trans hfg.size_eq
  parentOf_eq_or := by
    intro k
    rcases hgh.parentOf_eq_or k with hparent | hroot
    · rw [hparent]
      exact hfg.parentOf_eq_or k
    · rw [hroot, hfg.root_eq hf]
      exact Or.inr rfl

end Compresses

/-- To hang an index below its root skips links. -/
theorem compresses_setParent_root (hi : i < f.size) : Compresses f (f.setParent i (f.root i)) where
  rank_eq := rfl
  size_eq := size_setParent f i (f.root i)
  parentOf_eq_or := by
    intro k
    rw [parentOf_setParent hi]
    by_cases hk : k = i
    · rw [if_pos hk, hk]
      exact Or.inr rfl
    · rw [if_neg hk]
      exact Or.inl rfl

/-! ### The walk that shortens a path -/

/-- A walk from the index hangs what it leaves behind below `top`, and ends at a child of `top`. -/
inductive Shortens (top : ℕ) : ℕ → Forest → Forest → Prop
  | stop {i : ℕ} {f : Forest} (h : f.parentOf i = top) : Shortens top i f f
  | step {i : ℕ} {f g : Forest} (h : f.parentOf i ≠ top)
      (rest : Shortens top (f.parentOf i) (f.setParent i top) g) : Shortens top i f g

/-- The walk only skips links. -/
theorem Shortens.compresses (hshort : Shortens top i f g) (hf : f.Ranked) (hi : i < f.size)
    (htop : f.root i = top) : Compresses f g := by
  induction hshort with
  | stop _ => exact .refl _
  | @step i f g _ _ ih =>
    subst htop
    have hfirst : Compresses f (f.setParent i (f.root i)) := compresses_setParent_root hi
    refine hfirst.trans hf (ih (hfirst.ranked hf) ?_ ?_)
    · rw [hfirst.size_eq]
      exact hf.parentOf_lt i hi
    · rw [hfirst.root_eq hf, hf.root_parentOf]

namespace Ranked

/-- The walk that shortens a path needs no more steps than the one to the root. -/
theorem shortens_shorten (hf : f.Ranked) (hi : i < f.size) (htop : f.root i = top) {steps : ℕ}
    (hsteps : (f.above i).card < steps) : Shortens top i f (shorten top steps i f) := by
  induction steps generalizing i f with
  | zero => exact absurd hsteps (Nat.not_lt_zero _)
  | succ steps ih =>
    unfold shorten
    by_cases hlast : f.parentOf i = top
    · rw [if_pos hlast]
      exact .stop hlast
    · rw [if_neg hlast]
      subst htop
      have hmoves : f.parentOf i ≠ i := by
        intro hself
        exact hlast (hself.trans (hf.root_eq_self hself).symm)
      have hfirst : Compresses f (f.setParent i (f.root i)) := compresses_setParent_root hi
      refine .step hlast (ih (hfirst.ranked hf) ?_ ?_ ?_)
      · rw [hfirst.size_eq]
        exact hf.parentOf_lt i hi
      · rw [hfirst.root_eq hf, hf.root_parentOf]
      · rw [hfirst.above_eq]
        have hfewer := hf.card_above_parentOf_lt hmoves
        omega

/-- The walk that shortens the path from an index comes to an end. -/
theorem shortens_compress (hf : f.Ranked) (hi : i < f.size) :
    Shortens (f.root i) i f (f.compress i) :=
  hf.shortens_shorten hi rfl (card_above_lt hi)

/-- To look up a root only skips links. -/
theorem compresses_compress (hf : f.Ranked) (hi : i < f.size) : Compresses f (f.compress i) :=
  (hf.shortens_compress hi).compresses hf hi rfl

end Ranked

end NearClone.Forest
