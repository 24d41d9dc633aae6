import NearClone.Proofs.Forest.Count
import Mathlib.Data.Nat.Log

/-!
# Shallow trees

A rank is not the height of a tree any more once paths have been shortened, but it still counts: the
tree of a root of rank `k` has at least `2 ^ k` indices (`Weighty`). Shortening a path moves no
index to another tree (`Compresses.tree_eq`), and where a root is hung below another one of equal
rank, whose rank then grows, the two trees add up (`Hangs.card_tree_top`). So after any calls no
rank is above the binary logarithm of the number of indices, and neither is any walk to a root,
since every link leads to a greater rank (`shallow_runAll`).
-/

set_option autoImplicit false
set_option relaxedAutoImplicit false

namespace NearClone.Forest

variable {f g : Forest} {a b i r low top : ℕ}

/-! ### Trees -/

/-- The indices with a given root. -/
def tree (f : Forest) (r : ℕ) : Finset ℕ := (Finset.range f.size).filter fun i ↦ f.root i = r

@[simp]
theorem mem_tree : i ∈ f.tree r ↔ i < f.size ∧ f.root i = r := by
  rw [tree, Finset.mem_filter, Finset.mem_range]

/-- No tree has more indices than there are. -/
theorem card_tree_le (f : Forest) (r : ℕ) : (f.tree r).card ≤ f.size := by
  have hcard := Finset.card_le_card (Finset.filter_subset (fun i ↦ f.root i = r)
    (Finset.range f.size))
  rwa [Finset.card_range] at hcard

/-- Links that skip move no index to another tree. -/
theorem Compresses.tree_eq (hf : f.Ranked) (hfg : Compresses f g) (r : ℕ) :
    g.tree r = f.tree r := by
  simp only [tree, hfg.size_eq, hfg.root_eq hf]

/-- Links that skip make no root and take none away. -/
theorem Compresses.isRoot_iff (hf : f.Ranked) (hfg : Compresses f g) :
    g.IsRoot r ↔ f.IsRoot r := by
  rw [← mem_roots, ← mem_roots, hfg.roots_eq hf]

namespace Hangs

section Trees

variable (hfg : Hangs f g low top) (hf : f.Ranked) (hlow : f.IsRoot low) (htop : f.IsRoot top)
  (hne : low ≠ top)

include hfg hf hlow htop hne

/-- Other trees than the two stay as they are. -/
theorem tree_eq (hr : r ≠ top) (hr' : r ≠ low) : g.tree r = f.tree r := by
  have hg : g.Ranked := hfg.ranked hf htop hne
  ext k
  rw [mem_tree, mem_tree, hfg.size_eq, hfg.root_eq hf hg hlow htop hne]
  refine and_congr_right fun _ ↦ ?_
  by_cases hk : f.root k = low
  · rw [if_pos hk, hk]
    exact iff_of_false hr.symm hr'.symm
  · rw [if_neg hk]

/-- The indices of the tree that is hung below the other one join those of that one. -/
theorem card_tree_top : (g.tree top).card = (f.tree top).card + (f.tree low).card := by
  have hg : g.Ranked := hfg.ranked hf htop hne
  have hdisjoint : Disjoint (f.tree top) (f.tree low) := by
    refine Finset.disjoint_left.mpr fun k hktop hklow ↦ hne ?_
    rw [← (mem_tree.mp hklow).2, (mem_tree.mp hktop).2]
  rw [← Finset.card_union_of_disjoint hdisjoint]
  congr 1
  ext k
  rw [Finset.mem_union, mem_tree, mem_tree, mem_tree, hfg.size_eq,
    hfg.root_eq hf hg hlow htop hne, ← and_or_left]
  refine and_congr_right fun _ ↦ ?_
  by_cases hk : f.root k = low
  · rw [if_pos hk]
    exact iff_of_true rfl (Or.inr hk)
  · rw [if_neg hk]
    exact (or_iff_left hk).symm

end Trees

/-- A root that is left over was a root before, and is not the one that was hung. -/
theorem isRoot_of_isRoot (hfg : Hangs f g low top) (hne : low ≠ top) (hr : g.IsRoot r) :
    r ≠ low ∧ f.IsRoot r := by
  have hself := hr.parentOf_eq
  have hlow : r ≠ low := by
    rintro rfl
    rw [hfg.parentOf_eq, if_pos rfl] at hself
    exact hne hself.symm
  rw [hfg.parentOf_eq, if_neg hlow] at hself
  exact ⟨hlow, hr.lt_size.trans_eq hfg.size_eq, hself⟩

end Hangs

/-! ### Weight -/

/-- The tree of a root of rank `k` has at least `2 ^ k` indices. -/
def Weighty (f : Forest) : Prop := ∀ r, f.IsRoot r → 2 ^ f.rankOf r ≤ (f.tree r).card

theorem weighty_empty : Weighty {} :=
  fun r hr ↦ absurd hr.lt_size (Nat.not_lt_zero r)

namespace Weighty

/-- A new index is a tree of rank zero. -/
theorem add (hweight : f.Weighty) (hf : f.Ranked) : f.add.Weighty := by
  intro r hr
  have hself : f.parentOf r = r := (parentOf_add f r).symm.trans hr.parentOf_eq
  rw [rankOf_add]
  by_cases hold : r < f.size
  · refine (hweight r ⟨hold, hself⟩).trans (Finset.card_le_card fun k hk ↦ ?_)
    obtain ⟨hsize, hroot⟩ := mem_tree.mp hk
    rw [mem_tree, size_add, hf.root_add]
    exact ⟨Nat.lt_succ_of_lt hsize, hroot⟩
  · have hrank : f.rankOf r = 0 := by
      have hbeyond : f.rank.size ≤ r := hf.size_rank.trans_le (Nat.le_of_not_lt hold)
      rw [rankOf, Array.getElem?_eq_none hbeyond, Option.getD_none]
    rw [hrank, pow_zero, Nat.one_le_iff_ne_zero, Finset.card_ne_zero]
    exact ⟨r, mem_tree.mpr ⟨hr.lt_size, hf.add.root_eq_self hr.parentOf_eq⟩⟩

/-- To shorten paths changes neither ranks nor trees. -/
theorem compresses (hweight : f.Weighty) (hf : f.Ranked) (hfg : Compresses f g) : g.Weighty := by
  intro r hr
  rw [hfg.rankOf_eq, hfg.tree_eq hf]
  exact hweight r ((hfg.isRoot_iff hf).mp hr)

/-- To hang one root below another one keeps the weight of trees, if the rank of that one grows by
one at most, and only where both are of equal rank. -/
theorem hangs (hweight : f.Weighty) (hf : f.Ranked) (hlow : f.IsRoot low) (htop : f.IsRoot top)
    (hne : low ≠ top) (hfg : Hangs f g low top)
    (hrank : g.rankOf top = f.rankOf top ∨
      f.rankOf low = f.rankOf top ∧ g.rankOf top = f.rankOf top + 1) : g.Weighty := by
  intro r hr
  obtain ⟨hrlow, hroot⟩ := hfg.isRoot_of_isRoot hne hr
  by_cases hrtop : r = top
  · subst hrtop
    have hweightTop := hweight r hroot
    have hweightLow := hweight low hlow
    rw [hfg.card_tree_top hf hlow htop hne]
    rcases hrank with hsame | ⟨hequal, hgrown⟩
    · rw [hsame]
      exact hweightTop.trans (Nat.le_add_right _ _)
    · rw [hequal] at hweightLow
      rw [hgrown, Nat.pow_succ, Nat.mul_two]
      exact Nat.add_le_add hweightTop hweightLow
  · rw [hfg.rankOf_eq r hrtop, hfg.tree_eq hf hlow htop hne hrtop hrlow]
    exact hweight r hroot

end Weighty

namespace Ranked

/-- To link two roots changes a rank by one at most, and only where both are of equal rank. -/
theorem rankOf_link (hf : f.Ranked) (ha : f.IsRoot a) (b k : ℕ) :
    (f.link a b).rankOf k = f.rankOf k ∨
      f.rankOf a = f.rankOf b ∧ (f.link a b).rankOf k = f.rankOf k + 1 := by
  unfold Forest.link
  by_cases hab : a = b
  · rw [if_pos hab]
    exact Or.inl rfl
  · rw [if_neg hab]
    by_cases hlt : f.rankOf a < f.rankOf b
    · simp only [if_pos hlt, if_neg hlt.ne', rankOf_setParent, true_or]
    · simp only [if_neg hlt]
      by_cases hequal : f.rankOf a = f.rankOf b
      · rw [if_pos hequal]
        have hrank := rankOf_setRank (f := f.setParent b a)
          (ha.lt_size.trans_eq hf.size_rank.symm) (f.rankOf a + 1) k
        by_cases hk : k = a
        · rw [if_pos hk] at hrank
          rw [hk] at hrank ⊢
          exact Or.inr ⟨hequal, hrank⟩
        · rw [if_neg hk] at hrank
          exact Or.inl hrank
      · rw [if_neg hequal]
        exact Or.inl rfl

/-- To link two roots keeps the weight of trees. -/
theorem weighty_link (hf : f.Ranked) (ha : f.IsRoot a) (hb : f.IsRoot b) (hweight : f.Weighty) :
    (f.link a b).Weighty := by
  by_cases hab : a = b
  · rw [Forest.link, if_pos hab]
    exact hweight
  · rcases hf.hangs_link ha hb hab with hhangs | hhangs
    · exact hweight.hangs hf ha hb hab hhangs (hf.rankOf_link ha b b)
    · refine hweight.hangs hf hb ha (Ne.symm hab) hhangs ?_
      exact (hf.rankOf_link ha b a).imp_right (And.imp_left Eq.symm)

/-- A call keeps the weight of trees. -/
theorem weighty_run (hf : f.Ranked) (hweight : f.Weighty) (c : Call) : (f.run c).2.Weighty := by
  rcases hf.run_cases c with ⟨-, hrun⟩ | ⟨i, j, -, hi, hj, hrun⟩ | ⟨-, hcompresses⟩
  · rw [hrun]
    exact hweight.add hf
  · have hboth := hf.compresses_compress_compress hi hj
    rw [hrun, hf.union_eq_link hi]
    exact (hboth.ranked hf).weighty_link (hboth.isRoot_root hf hi) (hboth.isRoot_root hf hj)
      (hweight.compresses hf hboth)
  · exact hweight.compresses hf hcompresses

/-- Any calls keep the weight of trees. -/
theorem weighty_runAll (hf : f.Ranked) (hweight : f.Weighty) (calls : List Call) :
    (f.runAll calls).Weighty := by
  induction calls using List.reverseRecOn with
  | nil => exact hweight
  | append_singleton calls c ih =>
    rw [runAll_concat]
    exact (hf.runAll calls).weighty_run ih c

end Ranked

/-! ### Height -/

/-- A walk takes no more steps than ranks lie between its ends. -/
theorem Climbs.exists_iterate (hf : f.Ranked) (h : f.Climbs i r) :
    ∃ steps, f.parentOf^[steps] i = r ∧ steps + f.rankOf i ≤ f.rankOf r := by
  induction h with
  | top _ => exact ⟨0, rfl, (Nat.zero_add _).le⟩
  | @step i r hmoves _ ih =>
    obtain ⟨steps, hend, hle⟩ := ih
    have hlink := hf.rankOf_lt i hmoves
    exact ⟨steps + 1, hend, by omega⟩

namespace Weighty

/-- No rank is above the binary logarithm of the number of indices. -/
theorem rankOf_le_log (hweight : f.Weighty) (hf : f.Ranked) (hi : i < f.size) :
    f.rankOf i ≤ Nat.log 2 f.size := by
  have hroot : f.rankOf i ≤ f.rankOf (f.root i) := by
    by_cases hself : f.root i = i
    · rw [hself]
    · exact (hf.rankOf_lt_rankOf_root hself).le
  have hpow : 2 ^ f.rankOf (f.root i) ≤ f.size :=
    (hweight _ (hf.isRoot_root hi)).trans (f.card_tree_le _)
  exact hroot.trans (Nat.le_log_of_pow_le Nat.one_lt_two hpow)

/-- No walk to a root is longer than the binary logarithm of the number of indices. -/
theorem exists_iterate_eq_root (hweight : f.Weighty) (hf : f.Ranked) (hi : i < f.size) :
    ∃ steps ≤ Nat.log 2 f.size, f.parentOf^[steps] i = f.root i := by
  obtain ⟨steps, hend, hle⟩ := (hf.climbs_root i).exists_iterate hf
  have hrank := hweight.rankOf_le_log hf (hf.root_lt hi)
  exact ⟨steps, by omega, hend⟩

end Weighty

/-- After any calls, starting with no index, the tree of every root of rank `k` has at least `2 ^ k`
indices. So no rank is above the binary logarithm of the number of indices, and at most so many
steps along parent links lead from an index to its root. -/
theorem shallow_runAll (calls : List Call) :
    let f := runAll {} calls
    (∀ r, f.IsRoot r → 2 ^ f.rankOf r ≤ (f.tree r).card) ∧
      (∀ i < f.size, f.rankOf i ≤ Nat.log 2 f.size) ∧
      ∀ i < f.size, ∃ steps ≤ Nat.log 2 f.size, f.parentOf^[steps] i = f.root i := by
  intro f
  have hf : f.Ranked := ranked_empty.runAll calls
  have hweight : f.Weighty := ranked_empty.weighty_runAll weighty_empty calls
  exact ⟨hweight, fun i hi ↦ hweight.rankOf_le_log hf hi,
    fun i hi ↦ hweight.exists_iterate_eq_root hf hi⟩

/-- The bounds are reached: two unions of pairs and one of the outcomes leave a root of rank two
with all four indices in its tree, and one of them two steps away. A union that fails and a lookup
stand between them. -/
theorem shallow_runAll_four :
    let calls : List Call := List.replicate 4 .add ++
      [.union 0 1, .union 2 3, .union 1 4, .find 3, .union 0 2]
    let f := runAll {} calls
    f.IsRoot 0 ∧ f.rankOf 0 = 2 ∧ (f.tree 0).card = 4 ∧ Nat.log 2 f.size = 2 ∧
      f.parentOf^[1] 3 ≠ f.root 3 ∧ ∃ steps ≤ 2, f.parentOf^[steps] 3 = f.root 3 := by
  intro calls f
  have hroot : f.IsRoot 0 := ⟨by decide +kernel, by decide +kernel⟩
  have hrank : f.rankOf 0 = 2 := by decide +kernel
  have hlog : Nat.log 2 f.size = 2 := by decide +kernel
  obtain ⟨hweight, -, hsteps⟩ := shallow_runAll calls
  refine ⟨hroot, hrank, ?_, hlog, by decide +kernel, ?_⟩
  · have hfour := hweight 0 hroot
    rw [hrank] at hfour
    exact le_antisymm (f.card_tree_le 0) hfour
  · rw [← hlog]
    exact hsteps 3 (by decide +kernel)

end NearClone.Forest
