import NearClone.Listing.Sorted
import Mathlib.Data.List.Pairwise

/-!
# Stability of sorting

Sorting by a comparison leaves a list that ascends as it is (`sortBy_of_pairwise`), and elements
that compare equal in their order (`filter_sortBy`). So a relation that holds from earlier to later
elements of a list still does between equal elements of the sorted one
(`pairwise_sortBy_of_pairwise`).

Where no two elements compare equal the sorted list ascends strictly (`pairwise_lt_sortBy`), and a
list that ascends strictly is determined by its elements (`eq_of_pairwise_of_mem_iff`), and is part
of one with more elements (`sublist_of_pairwise_of_subset`). It is enough that the comparison is
transitive on elements like those of the list (`pairwise_lt_sortBy_of_forall`).
-/

set_option autoImplicit false
set_option relaxedAutoImplicit false

namespace NearClone.Listing

variable {β γ : Type} {cmp : β → β → Ordering}

/-- A list that ascends already is left as it is. -/
theorem sortBy_of_pairwise {xs : List β} (h : xs.Pairwise fun a b ↦ (cmp a b).isLE = true) :
    sortBy cmp xs = xs :=
  List.mergeSort_of_pairwise h

/-- Of two elements one comes at most as late as the other. -/
theorem isLE_or_isLE [Std.OrientedCmp cmp] (a b : β) :
    ((cmp a b).isLE || (cmp b a).isLE) = true := by
  have hswap : cmp b a = (cmp a b).swap := Std.OrientedCmp.eq_swap
  rw [hswap]
  cases cmp a b <;> rfl

/-- The elements that compare equal to a given one stand in the sorted list as they stood. -/
theorem filter_sortBy [Std.TransCmp cmp] (a : β) (xs : List β) :
    (sortBy cmp xs).filter (fun b ↦ cmp a b = .eq) = xs.filter fun b ↦ cmp a b = .eq := by
  have hequal : (xs.filter fun b ↦ cmp a b = .eq).Pairwise fun b c ↦ (cmp b c).isLE = true := by
    refine List.pairwise_of_forall_mem_list fun b hb c hc ↦ ?_
    have hab : cmp a b = .eq := by simpa using (List.mem_filter.mp hb).2
    have hac : cmp a c = .eq := by simpa using (List.mem_filter.mp hc).2
    rw [← Std.TransCmp.congr_left hab, hac]
    rfl
  have hsublist : (xs.filter fun b ↦ cmp a b = .eq).Sublist (sortBy cmp xs) :=
    List.sublist_mergeSort (fun _ _ _ ↦ Std.TransCmp.isLE_trans) isLE_or_isLE hequal
      List.filter_sublist
  have hkept := hsublist.filter fun b ↦ decide (cmp a b = .eq)
  rw [List.filter_filter] at hkept
  simp only [Bool.and_self] at hkept
  exact (hkept.eq_of_length (((sortBy_perm cmp xs).filter _).length_eq.symm)).symm

/-- What holds from earlier to later elements of a list holds in the sorted one between elements
that compare equal. -/
theorem pairwise_sortBy_of_pairwise [Std.TransCmp cmp] {R : β → β → Prop} {xs : List β}
    (h : xs.Pairwise R) :
    (sortBy cmp xs).Pairwise fun a b ↦ cmp a b = .lt ∨ cmp a b = .eq ∧ R a b := by
  have hsorted := pairwise_sortBy cmp xs
  rw [List.pairwise_iff_forall_sublist] at h hsorted ⊢
  intro a b hab
  rcases Ordering.isLE_iff_eq_lt_or_eq_eq.mp (hsorted hab) with hlt | heq
  · exact Or.inl hlt
  · refine Or.inr ⟨heq, h ?_⟩
    -- Both elements compare equal to the first, so they stand in the list as they are sorted.
    have hkept := hab.filter fun c ↦ decide (cmp a c = .eq)
    have hself : cmp a a = .eq := Std.ReflCmp.compare_self
    rw [filter_sortBy] at hkept
    simp only [List.filter_cons, List.filter_nil, hself, heq, decide_true, if_true] at hkept
    exact hkept.trans List.filter_sublist

/-- A comparison of what a function makes of the elements is as transitive as that of its values. -/
theorem transCmp_on (cmp : γ → γ → Ordering) [Std.TransCmp cmp] (f : β → γ) :
    Std.TransCmp fun a b ↦ cmp (f a) (f b) where
  eq_swap := Std.OrientedCmp.eq_swap
  isLE_trans := Std.TransCmp.isLE_trans

/-- To sort by what a function makes of the elements is to sort its values. -/
theorem map_sortBy (cmp : γ → γ → Ordering) (f : β → γ) (xs : List β) :
    (sortBy (fun a b ↦ cmp (f a) (f b)) xs).map f = sortBy cmp (xs.map f) :=
  List.map_mergeSort fun _ _ _ _ ↦ rfl

/-! ### Strict order -/

/-- Sorting makes a list ascend strictly where no two elements compare equal. -/
theorem pairwise_lt_sortBy [Std.TransCmp cmp] {xs : List β}
    (h : xs.Pairwise fun a b ↦ cmp a b ≠ .eq) :
    (sortBy cmp xs).Pairwise fun a b ↦ cmp a b = .lt := by
  refine (pairwise_sortBy_of_pairwise h).imp ?_
  rintro a b (hlt | ⟨heq, hne⟩)
  · exact hlt
  · exact absurd heq hne

/-- Sorting makes a list ascend strictly where no two elements compare equal, if the comparison is
transitive on elements like those of the list. -/
theorem pairwise_lt_sortBy_of_forall {P : β → Prop}
    (hcmp : Std.TransCmp fun a b : {x // P x} ↦ cmp a.val b.val) {xs : List β}
    (hxs : ∀ x ∈ xs, P x) (h : xs.Pairwise fun a b ↦ cmp a b ≠ .eq) :
    (sortBy cmp xs).Pairwise fun a b ↦ cmp a b = .lt := by
  have hvalues : (xs.attachWith P hxs).map Subtype.val = xs :=
    List.attachWith_map_subtype_val hxs
  have hne : (xs.attachWith P hxs).Pairwise fun a b ↦ cmp a.val b.val ≠ .eq := by
    rw [← hvalues, List.pairwise_map] at h
    exact h
  have hsorted := pairwise_lt_sortBy hne
  rw [← hvalues, ← map_sortBy cmp Subtype.val, List.pairwise_map]
  exact hsorted

/-- The places of the elements of a list ascend. -/
theorem pairwise_zipIdx (xs : List β) : xs.zipIdx.Pairwise fun e e' ↦ e.2 < e'.2 := by
  rw [← List.pairwise_map, List.zipIdx_map_snd]
  exact List.pairwise_lt_range' 1

/-- A list in which an asymmetric relation holds from earlier to later elements is determined by its
elements. -/
theorem eq_of_pairwise_of_mem_iff {R : β → β → Prop} {xs ys : List β}
    (hasymm : ∀ a ∈ xs, ∀ b ∈ xs, R a b → ¬ R b a) (hxs : xs.Pairwise R) (hys : ys.Pairwise R)
    (h : ∀ a, a ∈ xs ↔ a ∈ ys) : xs = ys := by
  have hirrefl {a b : β} (ha : a ∈ xs) (hab : R a b) : a ≠ b := by
    rintro rfl
    exact hasymm a ha a ha hab hab
  have hxsNodup : xs.Nodup := hxs.imp_of_mem fun ha _ hab ↦ hirrefl ha hab
  have hysNodup : ys.Nodup := hys.imp_of_mem fun ha _ hab ↦ hirrefl ((h _).mpr ha) hab
  refine List.Perm.eq_of_pairwise ?_ hxs hys ((List.perm_ext_iff_of_nodup hxsNodup hysNodup).mpr h)
  intro a b ha hb hab hba
  exact absurd hba (hasymm a ha b ((h b).mpr hb) hab)

/-- Of two lists in which an asymmetric relation holds from earlier to later elements, one with
fewer elements is a part of the other. -/
theorem sublist_of_pairwise_of_subset {R : β → β → Prop} {xs ys : List β}
    (hasymm : ∀ a ∈ ys, ∀ b ∈ ys, R a b → ¬ R b a) (hxs : xs.Pairwise R) (hys : ys.Pairwise R)
    (h : xs ⊆ ys) : xs.Sublist ys := by
  classical
  have hpart : xs = ys.filter fun a ↦ a ∈ xs := by
    refine eq_of_pairwise_of_mem_iff (fun a ha b hb ↦ hasymm a (h ha) b (h hb)) hxs
      (hys.filter _) fun a ↦ ?_
    rw [List.mem_filter, decide_eq_true_eq]
    exact (and_iff_right_of_imp fun ha ↦ h ha).symm
  rw [hpart]
  exact List.filter_sublist

end NearClone.Listing
