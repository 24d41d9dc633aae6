import NearClone.Proofs.Listing.Sorted

/-!
# The least element

The least element of a list is the first of those that compare equal to it, and no element precedes
it (`least?_spec`): on the way through the list a later element takes over only if it precedes the
best one so far (`foldl_least`). So it is where a stable sorting puts the first element
(`head?_sortBy`). Whatever the comparison, the least image of the elements is the image of the least
one (`least?_map`).
-/

set_option autoImplicit false
set_option relaxedAutoImplicit false

namespace NearClone.Listing

variable {β γ : Type}

/-- The least image is the image of the least element. -/
theorem least?_map (cmp : γ → γ → Ordering) (f : β → γ) (xs : List β) :
    least? cmp (xs.map f) = (least? (fun a b ↦ cmp (f a) (f b)) xs).map f := by
  cases xs with
  | nil => rfl
  | cons x xs =>
    simp only [List.map_cons, least?, Option.map_some, List.foldl_map]
    congr 1
    exact List.foldl_hom f fun best y ↦ (apply_ite f _ _ _).symm

variable {cmp : β → β → Ordering} [Std.TransCmp cmp]

/-- The best element so far stays the first least one of all elements seen. -/
theorem foldl_least (best : β) (xs : List β) {m : β}
    (h : xs.foldl (fun best y ↦ if (cmp y best).isLT then y else best) best = m) :
    (∀ y ∈ best :: xs, (cmp m y).isLE = true) ∧
      (best :: xs).find? (fun y ↦ cmp y m = .eq) = some m := by
  induction xs generalizing best with
  | nil =>
    subst h
    have hself : cmp best best = .eq := Std.ReflCmp.compare_self
    refine ⟨fun y hy ↦ ?_, ?_⟩
    · rw [List.mem_singleton.mp hy, List.foldl_nil, hself]
      rfl
    · exact List.find?_cons_of_pos (decide_eq_true hself)
  | cons y rest ih =>
    rw [List.foldl_cons] at h
    by_cases hlt : (cmp y best).isLT = true
    · -- The new element takes over, and the best one so far comes after it.
      rw [if_pos hlt] at h
      obtain ⟨hleast, hfirst⟩ := ih y h
      have hbest : cmp m best = .lt :=
        Std.TransCmp.lt_of_isLE_of_lt (hleast y List.mem_cons_self) (Ordering.isLT_iff_eq_lt.mp hlt)
      refine ⟨List.forall_mem_cons.mpr ⟨?_, hleast⟩, ?_⟩
      · rw [hbest]
        rfl
      · rw [List.find?_cons_of_neg, hfirst]
        rw [decide_eq_true_eq, Std.OrientedCmp.eq_comm, hbest]
        exact Ordering.noConfusion
    · -- The best one so far stays, and comes before the new element or along with it.
      rw [if_neg hlt] at h
      obtain ⟨hleast, hfirst⟩ := ih best h
      obtain ⟨hbest, hrest⟩ := List.forall_mem_cons.mp hleast
      have hle : (cmp best y).isLE = true := by
        rw [Ordering.isLT_iff_eq_lt, ← Std.OrientedCmp.gt_iff_lt] at hlt
        cases hcmp : cmp best y with
        | lt => rfl
        | eq => rfl
        | gt => exact absurd hcmp hlt
      refine ⟨List.forall_mem_cons.mpr ⟨hbest, List.forall_mem_cons.mpr
        ⟨Std.TransCmp.isLE_trans hbest hle, hrest⟩⟩, ?_⟩
      by_cases heq : cmp best m = .eq
      · simp only [List.find?_cons, heq, decide_true] at hfirst ⊢
        exact hfirst
      · have hskip : ¬ cmp y m = .eq := fun hy ↦ by
          have hback : (cmp best m).isLE = true := by
            rw [← Std.TransCmp.congr_right hy]
            exact hle
          exact heq (Std.OrientedCmp.isLE_antisymm hback hbest)
        simp only [List.find?_cons, heq, hskip, decide_false] at hfirst ⊢
        exact hfirst

/-- No element precedes the least one, and it is the first of those that compare equal to it. -/
theorem least?_spec {xs : List β} {m : β} (h : least? cmp xs = some m) :
    (∀ y ∈ xs, (cmp m y).isLE = true) ∧ xs.find? (fun y ↦ cmp y m = .eq) = some m := by
  cases xs with
  | nil => exact nomatch h
  | cons x xs => exact foldl_least x xs (Option.some.inj h)

/-- The least element is the first one of the sorted list. -/
theorem head?_sortBy (xs : List β) : (sortBy cmp xs).head? = least? cmp xs := by
  cases hleast : least? cmp xs with
  | none =>
    cases xs with
    | nil => rw [sortBy_nil, List.head?_nil]
    | cons x xs => exact nomatch hleast
  | some m =>
    obtain ⟨hle, hfirst⟩ := least?_spec hleast
    have hm : m ∈ sortBy cmp xs := mem_sortBy.mpr (List.mem_of_find?_eq_some hfirst)
    obtain ⟨a, rest, hsorted⟩ := List.exists_cons_of_ne_nil (List.ne_nil_of_mem hm)
    -- The first element of the sorted list compares equal to the least one.
    have heq : cmp m a = .eq := by
      have hascend := pairwise_sortBy cmp xs
      rw [hsorted] at hascend hm
      have hback : (cmp a m).isLE = true := by
        rcases List.mem_cons.mp hm with rfl | hrest
        · exact Std.ReflCmp.isLE_rfl
        · exact List.rel_of_pairwise_cons hascend hrest
      have ha : a ∈ xs := mem_sortBy.mp (hsorted ▸ List.mem_cons_self)
      exact Std.OrientedCmp.isLE_antisymm (hle a ha) hback
    have hflip : (fun b ↦ decide (cmp b m = .eq)) = fun b ↦ decide (cmp m b = .eq) :=
      funext fun _ ↦ decide_eq_decide.mpr Std.OrientedCmp.eq_comm
    have hkept : ((sortBy cmp xs).filter fun b ↦ cmp m b = .eq) =
        xs.filter fun b ↦ cmp m b = .eq := filter_sortBy m xs
    rw [hflip, ← List.head?_filter, ← hkept, hsorted,
      List.filter_cons_of_pos (p := fun b ↦ cmp m b = .eq) (decide_eq_true heq),
      List.head?_cons] at hfirst
    rw [hsorted, List.head?_cons, hfirst]

end NearClone.Listing
