import NearClone.Forest
import Mathlib.Data.Finset.Card
import Mathlib.Algebra.GroupWithZero.Nat

/-!
# Roots of a forest

The ranks of a forest grow along every link (`Forest.Ranked`). So a walk along links comes to an end
(`Ranked.climbs_root`), and it takes fewer steps than there are indices, since every step leaves an
index of greater rank behind. Where a walk ends is its root (`Ranked.climbs_iff`).
-/

set_option autoImplicit false
set_option relaxedAutoImplicit false

namespace NearClone.Forest

variable {f : Forest} {i j r s : ℕ}

/-! ### Parents and ranks -/

/-- An index beyond the end is its own parent. -/
theorem parentOf_of_size_le (h : f.size ≤ i) : f.parentOf i = i := by
  rw [parentOf, Array.getElem?_eq_none h, Option.getD_none]

/-- An index that hangs below another one exists. -/
theorem lt_size_of_parentOf_ne (h : f.parentOf i ≠ i) : i < f.size := by
  by_contra hbeyond
  exact h (parentOf_of_size_le (Nat.le_of_not_lt hbeyond))

/-- Hanging an index below another one changes no other parent. -/
theorem parentOf_setParent (hi : i < f.size) (p k : ℕ) :
    (f.setParent i p).parentOf k = if k = i then p else f.parentOf k := by
  unfold parentOf setParent
  rw [Array.getElem?_setIfInBounds]
  by_cases hk : k = i
  · subst hk
    have hbound : k < f.parent.size := hi
    rw [if_pos rfl, if_pos hbound, if_pos rfl, Option.getD_some]
  · rw [if_neg (Ne.symm hk), if_neg hk]

@[simp]
theorem rankOf_setParent (f : Forest) (i p k : ℕ) : (f.setParent i p).rankOf k = f.rankOf k := rfl

/-- A new index was its own parent before. -/
@[simp]
theorem parentOf_add (f : Forest) (k : ℕ) : f.add.parentOf k = f.parentOf k := by
  unfold parentOf add
  rw [Array.getElem?_push]
  by_cases hk : k = f.parent.size
  · rw [if_pos hk, Option.getD_some, hk, Array.getElem?_eq_none le_rfl, Option.getD_none]
    rfl
  · rw [if_neg hk]

/-- A new index had rank zero before. -/
@[simp]
theorem rankOf_add (f : Forest) (k : ℕ) : f.add.rankOf k = f.rankOf k := by
  unfold rankOf add
  rw [Array.getElem?_push]
  by_cases hk : k = f.rank.size
  · rw [if_pos hk, Option.getD_some, hk, Array.getElem?_eq_none le_rfl, Option.getD_none]
  · rw [if_neg hk]

/-! ### Ranked forests -/

/-- Every parent exists, and ranks grow along links. -/
structure Ranked (f : Forest) : Prop where
  size_rank : f.rank.size = f.size
  parentOf_lt : ∀ i < f.size, f.parentOf i < f.size
  rankOf_lt : ∀ i, f.parentOf i ≠ i → f.rankOf i < f.rankOf (f.parentOf i)

/-- A forest without indices is ranked. -/
theorem ranked_empty : Ranked {} where
  size_rank := rfl
  parentOf_lt := fun _ hi ↦ absurd hi (Nat.not_lt_zero _)
  rankOf_lt := fun _ hi ↦ absurd (lt_size_of_parentOf_ne hi) (Nat.not_lt_zero _)

/-- A new index keeps a forest ranked. -/
theorem Ranked.add (hf : f.Ranked) : f.add.Ranked where
  size_rank := by
    have hsize : f.add.rank.size = f.rank.size + 1 := Array.size_push 0
    rw [hsize, hf.size_rank, size_add]
  parentOf_lt := by
    intro i hi
    rw [size_add] at hi ⊢
    rw [parentOf_add]
    by_cases hold : i < f.size
    · exact Nat.lt_succ_of_lt (hf.parentOf_lt i hold)
    · rwa [parentOf_of_size_le (Nat.le_of_not_lt hold)]
  rankOf_lt := by
    intro i hi
    rw [parentOf_add] at hi
    rw [parentOf_add, rankOf_add, rankOf_add]
    exact hf.rankOf_lt i hi

/-- An index that exists and is its own parent. -/
structure IsRoot (f : Forest) (i : ℕ) : Prop where
  lt_size : i < f.size
  parentOf_eq : f.parentOf i = i

/-! ### Walks along links -/

/-- A walk along links from the first index ends at the second one, which is its own parent. -/
inductive Climbs (f : Forest) : ℕ → ℕ → Prop
  | top {i : ℕ} (h : f.parentOf i = i) : Climbs f i i
  | step {i r : ℕ} (h : f.parentOf i ≠ i) (rest : Climbs f (f.parentOf i) r) : Climbs f i r

namespace Climbs

/-- Where a walk ends there is a root. -/
theorem parentOf_eq (h : f.Climbs i r) : f.parentOf r = r := by
  induction h with
  | top h => exact h
  | step _ _ ih => exact ih

/-- A walk ends at one place. -/
theorem unique (hr : f.Climbs i r) (hs : f.Climbs i s) : r = s := by
  induction hr with
  | top h =>
    cases hs with
    | top _ => rfl
    | step hne _ => exact absurd h hne
  | step hne _ ih =>
    cases hs with
    | top h => exact absurd h hne
    | step _ hrest => exact ih hrest

/-- A walk stays among the indices. -/
theorem lt_size (hf : f.Ranked) (h : f.Climbs i r) (hi : i < f.size) : r < f.size := by
  induction h with
  | top _ => exact hi
  | step _ _ ih => exact ih (hf.parentOf_lt _ hi)

/-- A walk that moves ends at a greater rank. -/
theorem rankOf_lt (hf : f.Ranked) (h : f.Climbs i r) (hne : i ≠ r) :
    f.rankOf i < f.rankOf r := by
  induction h with
  | top _ => exact absurd rfl hne
  | @step i r hparent _ ih =>
    have hlink := hf.rankOf_lt i hparent
    by_cases hlast : f.parentOf i = r
    · rwa [← hlast]
    · exact hlink.trans (ih hlast)

end Climbs

/-! ### The end of a walk -/

/-- The indices of greater rank. -/
def above (f : Forest) (i : ℕ) : Finset ℕ :=
  (Finset.range f.size).filter fun k ↦ f.rankOf i < f.rankOf k

theorem mem_above {k : ℕ} : k ∈ f.above i ↔ k < f.size ∧ f.rankOf i < f.rankOf k := by
  rw [above, Finset.mem_filter, Finset.mem_range]

/-- An index is not among those of greater rank. -/
theorem card_above_lt (hi : i < f.size) : (f.above i).card < f.size := by
  have hproper : f.above i ⊂ Finset.range f.size := by
    refine Finset.ssubset_iff_of_subset (Finset.filter_subset _ _) |>.mpr ⟨i, ?_, ?_⟩
    · exact Finset.mem_range.mpr hi
    · intro hmem
      exact lt_irrefl _ (mem_above.mp hmem).2
  have hcard := Finset.card_lt_card hproper
  rwa [Finset.card_range] at hcard

namespace Ranked

/-- A step along a link leaves fewer indices of greater rank. -/
theorem card_above_parentOf_lt (hf : f.Ranked) (h : f.parentOf i ≠ i) :
    (f.above (f.parentOf i)).card < (f.above i).card := by
  have hlink := hf.rankOf_lt i h
  apply Finset.card_lt_card
  refine Finset.ssubset_iff_of_subset ?_ |>.mpr ⟨f.parentOf i, ?_, ?_⟩
  · intro k hk
    obtain ⟨hsize, hrank⟩ := mem_above.mp hk
    exact mem_above.mpr ⟨hsize, hlink.trans hrank⟩
  · exact mem_above.mpr ⟨hf.parentOf_lt i (lt_size_of_parentOf_ne h), hlink⟩
  · intro hmem
    exact lt_irrefl _ (mem_above.mp hmem).2

/-- So many steps are enough as there are indices of greater rank, and one for the root itself. -/
theorem climbs_climb (hf : f.Ranked) {steps : ℕ} (h : (f.above i).card < steps) :
    f.Climbs i (f.climb steps i) := by
  induction steps generalizing i with
  | zero => exact absurd h (Nat.not_lt_zero _)
  | succ steps ih =>
    unfold climb
    by_cases hroot : f.parentOf i = i
    · rw [if_pos hroot]
      exact .top hroot
    · rw [if_neg hroot]
      have hfewer := hf.card_above_parentOf_lt hroot
      exact .step hroot (ih (by omega))

/-- The walk from an index ends at its root. -/
theorem climbs_root (hf : f.Ranked) (i : ℕ) : f.Climbs i (f.root i) := by
  by_cases hi : i < f.size
  · exact hf.climbs_climb (card_above_lt hi)
  · have hself : f.parentOf i = i := parentOf_of_size_le (Nat.le_of_not_lt hi)
    have hroot : f.root i = i := by
      unfold root
      cases f.size with
      | zero => rfl
      | succ steps => exact if_pos hself
    rw [hroot]
    exact .top hself

/-- The root is where the walk ends. -/
theorem climbs_iff (hf : f.Ranked) : f.Climbs i r ↔ f.root i = r := by
  constructor
  · intro h
    exact (hf.climbs_root i).unique h
  · rintro rfl
    exact hf.climbs_root i

/-- A root is its own parent. -/
theorem parentOf_root (hf : f.Ranked) (i : ℕ) : f.parentOf (f.root i) = f.root i :=
  (hf.climbs_root i).parentOf_eq

/-- The root of an index exists. -/
theorem root_lt (hf : f.Ranked) (hi : i < f.size) : f.root i < f.size :=
  (hf.climbs_root i).lt_size hf hi

/-- The root of an index that exists is a root. -/
theorem isRoot_root (hf : f.Ranked) (hi : i < f.size) : f.IsRoot (f.root i) :=
  ⟨hf.root_lt hi, hf.parentOf_root i⟩

/-- An index that is its own parent is its own root. -/
theorem root_eq_self (hf : f.Ranked) (h : f.parentOf i = i) : f.root i = i :=
  hf.climbs_iff.mp (.top h)

/-- The root of a root is itself. -/
theorem root_root (hf : f.Ranked) (i : ℕ) : f.root (f.root i) = f.root i :=
  hf.root_eq_self (hf.parentOf_root i)

/-- A parent has the same root. -/
theorem root_parentOf (hf : f.Ranked) (i : ℕ) : f.root (f.parentOf i) = f.root i := by
  by_cases hself : f.parentOf i = i
  · rw [hself]
  · exact (hf.climbs_iff.mp (.step hself (hf.climbs_root (f.parentOf i)))).symm

/-- A root has a greater rank than all that hangs below it. -/
theorem rankOf_lt_rankOf_root (hf : f.Ranked) (h : f.root i ≠ i) :
    f.rankOf i < f.rankOf (f.root i) :=
  (hf.climbs_root i).rankOf_lt hf (Ne.symm h)

/-- A labelling that is constant along links and keeps every index that is its own parent gives the
roots. -/
theorem root_eq_of_label (hf : f.Ranked) (label : ℕ → ℕ)
    (hlink : ∀ k, label (f.parentOf k) = label k) (hself : ∀ k, f.parentOf k = k → label k = k)
    (k : ℕ) : f.root k = label k := by
  have hwalk {i r : ℕ} (h : f.Climbs i r) : label r = label i := by
    induction h with
    | top _ => rfl
    | @step i r _ _ ih => exact ih.trans (hlink i)
  rw [← hwalk (hf.climbs_root k), hself _ (hf.parentOf_root k)]

/-- A new index keeps every root. -/
theorem root_add (hf : f.Ranked) (k : ℕ) : f.add.root k = f.root k := by
  refine hf.add.root_eq_of_label f.root ?_ ?_ k
  · intro k
    rw [parentOf_add, hf.root_parentOf]
  · intro k hself
    rw [parentOf_add] at hself
    exact hf.root_eq_self hself

end Ranked

end NearClone.Forest
