import NearClone.Listing.Distinct
import Mathlib.Algebra.GroupWithZero.Nat
import Mathlib.Data.List.Pairwise
import Mathlib.Data.List.Perm.Basic

/-!
# Groups of equal keys

Of the elements with one key the first is kept (`mem_firstPer_iff`), and distinct elements come in
the order in which they first occur (`pairwise_idxOf_distinct`). The first group holds the first
element and all others of its key; the remaining groups are those of the elements with another key
(`groupsBy_cons`). By the induction that goes with it (`groupsBy_induction`) no group is empty and
all its elements have its key (`of_mem_groupsBy`), the groups together hold every element once
(`flatMap_groupsBy_perm`), and they come in the order of their first elements
(`pairwise_head_groupsBy`). First images are images of first elements (`firstPer_map`), and groups
of images are images of groups (`groupsBy_map`).
-/

set_option autoImplicit false
set_option relaxedAutoImplicit false

namespace NearClone.Listing

variable {β γ κ : Type} [DecidableEq κ] {key : β → κ}

/-- To select by key before or after keeping the first element for every key is the same. -/
theorem filter_firstPer {p : β → Bool} (hp : ∀ {x y}, key x = key y → p x = p y) (xs : List β) :
    (firstPer key xs).filter p = firstPer key (xs.filter p) := by
  induction xs with
  | nil => rfl
  | cons x xs ih =>
    cases hx : p x with
    | true =>
      rw [firstPer, List.filter_cons_of_pos hx, List.filter_cons_of_pos hx, firstPer, ← ih,
        List.filter_filter, List.filter_filter]
      simp only [Bool.and_comm]
    | false =>
      -- What is selected has another key than an element that is not.
      have hother : (firstPer key xs).filter (fun y ↦ p y && decide (key y ≠ key x)) =
          (firstPer key xs).filter p := by
        refine List.filter_congr fun y _ ↦ ?_
        cases hy : p y with
        | true =>
          have hne : key y ≠ key x := fun hkey ↦ by
            rw [hp hkey, hx] at hy
            exact Bool.noConfusion hy
          simp only [hne, ne_eq, not_false_eq_true, decide_true, Bool.and_self]
        | false => rfl
      rw [firstPer, List.filter_cons_of_neg (Bool.eq_false_iff.mp hx),
        List.filter_cons_of_neg (Bool.eq_false_iff.mp hx), List.filter_filter, hother, ih]

/-- The first element that is selected by key is the first of its key. -/
theorem find?_firstPer {p : β → Bool} (hp : ∀ {x y}, key x = key y → p x = p y) (xs : List β) :
    (firstPer key xs).find? p = xs.find? p := by
  rw [← List.head?_filter, filter_firstPer hp, ← List.head?_filter]
  cases xs.filter p <;> rfl

/-- What is kept for a key is the first element with that key. -/
theorem mem_firstPer_iff {xs : List β} {x : β} :
    x ∈ firstPer key xs ↔ xs.find? (fun y ↦ key y = key x) = some x := by
  have hsame : (firstPer key xs).find? (fun y ↦ key y = key x) =
      xs.find? fun y ↦ key y = key x :=
    find?_firstPer (fun h ↦ by rw [h]) xs
  rw [← hsame]
  constructor
  · intro hx
    cases hfound : (firstPer key xs).find? fun y ↦ key y = key x with
    | none => exact absurd (decide_eq_true rfl) (List.find?_eq_none.mp hfound x hx)
    | some y =>
      have hy := List.mem_of_find?_eq_some hfound
      have hkey : key y = key x :=
        of_decide_eq_true (List.find?_some (p := fun y ↦ decide (key y = key x)) hfound)
      -- No other element with the key is kept.
      by_contra hne
      have hsymm : Std.Symm fun a b : β ↦ key a ≠ key b := ⟨fun _ _ ↦ Ne.symm⟩
      exact (pairwise_firstPer key xs).forall hy hx (fun heq ↦ hne (congrArg some heq)) hkey
  · exact List.mem_of_find?_eq_some

/-- The distinct elements come in the order in which they first occur. -/
theorem pairwise_idxOf_distinct (xs : List κ) :
    (distinct xs).Pairwise fun v w ↦ xs.idxOf v < xs.idxOf w := by
  induction xs with
  | nil => exact List.Pairwise.nil
  | cons x xs ih =>
    have hother {y : κ} (hy : y ∈ (distinct xs).filter fun y ↦ id y ≠ id x) : x ≠ y :=
      (of_decide_eq_true (List.mem_filter.mp hy).2).symm
    refine List.Pairwise.cons ?_ ((ih.filter _).imp_of_mem ?_)
    · intro y hy
      rw [List.idxOf_cons_self, List.idxOf_cons_ne xs (hother hy)]
      exact Nat.succ_pos _
    · intro v w hv hw hlt
      rw [List.idxOf_cons_ne xs (hother hv), List.idxOf_cons_ne xs (hother hw)]
      exact Nat.succ_lt_succ hlt

/-- The first images for every value of a key are the images of first elements. -/
theorem firstPer_map (key : γ → κ) (f : β → γ) (xs : List β) :
    firstPer key (xs.map f) = (firstPer (fun x ↦ key (f x)) xs).map f := by
  induction xs with
  | nil => rfl
  | cons x xs ih =>
    rw [List.map_cons, firstPer, ih, List.filter_map]
    rfl

/-- The distinct keys are those of the first elements. -/
theorem distinct_map (key : β → κ) (xs : List β) :
    distinct (xs.map key) = (firstPer key xs).map key :=
  firstPer_map id key xs

/-- The group of the first element, and then the groups of the elements with another key. -/
theorem groupsBy_cons (key : β → κ) (x : β) (xs : List β) :
    groupsBy key (x :: xs) =
      (key x, x :: xs.filter fun y ↦ key y = key x) ::
        groupsBy key (xs.filter fun y ↦ key y ≠ key x) := by
  have hkeys : distinct ((x :: xs).map key) =
      key x :: distinct ((xs.filter fun y ↦ key y ≠ key x).map key) := by
    rw [distinct_map, distinct_map, firstPer, filter_firstPer fun h ↦ by rw [h], List.map_cons]
  have hfirst : (x :: xs).filter (fun y ↦ key y = key x) =
      x :: xs.filter fun y ↦ key y = key x := List.filter_cons_of_pos (by simp)
  rw [groupsBy, hkeys, List.map_cons, hfirst]
  refine congrArg _ (List.map_congr_left fun k hk ↦ ?_)
  -- The key of another group is not that of the first element.
  rw [distinct_map, List.mem_map] at hk
  obtain ⟨y, hy, rfl⟩ := hk
  have hne : key y ≠ key x := by simpa using (List.mem_filter.mp (mem_of_mem_firstPer hy)).2
  have hskip : (x :: xs).filter (fun z ↦ key z = key y) = xs.filter fun z ↦ key z = key y :=
    List.filter_cons_of_neg (by simpa using hne.symm)
  rw [hskip, List.filter_filter]
  refine congrArg (key y, ·) (List.filter_congr fun z _ ↦ ?_)
  by_cases hz : key z = key y
  · simp [hz, hne]
  · simp [hz]

/-- Elements that all have one key make one group. -/
theorem groupsBy_of_forall_eq {k : κ} {xs : List β} (hne : xs ≠ []) (h : ∀ x ∈ xs, key x = k) :
    groupsBy key xs = [(k, xs)] := by
  obtain ⟨x, xs, rfl⟩ := List.exists_cons_of_ne_nil hne
  obtain ⟨rfl, hrest⟩ := List.forall_mem_cons.mp h
  have hsame : (xs.filter fun y ↦ key y = key x) = xs :=
    List.filter_eq_self.mpr fun y hy ↦ decide_eq_true (hrest y hy)
  have hother : (xs.filter fun y ↦ key y ≠ key x) = [] :=
    List.filter_eq_nil_iff.mpr fun y hy ↦ by simp [hrest y hy]
  rw [groupsBy_cons, hsame, hother]
  rfl

/-- What holds of no groups, and is kept when a first element comes with its group, holds of all
groups. -/
theorem groupsBy_induction (key : β → κ) {motive : List β → List (κ × List β) → Prop}
    (nil : motive [] [])
    (cons : ∀ x xs,
      motive (xs.filter fun y ↦ key y ≠ key x) (groupsBy key (xs.filter fun y ↦ key y ≠ key x)) →
        motive (x :: xs) ((key x, x :: xs.filter fun y ↦ key y = key x) ::
          groupsBy key (xs.filter fun y ↦ key y ≠ key x)))
    (xs : List β) : motive xs (groupsBy key xs) := by
  induction hlength : xs.length using Nat.strongRecOn generalizing xs with
  | ind n ih =>
    cases xs with
    | nil => exact nil
    | cons x xs =>
      have hshorter : (xs.filter fun y ↦ key y ≠ key x).length < n := by
        rw [← hlength, List.length_cons]
        exact Nat.lt_succ_of_le (List.length_filter_le _ _)
      rw [groupsBy_cons]
      exact cons x xs (ih _ hshorter _ rfl)

/-- A group is not empty, and holds elements of the list that have its key. -/
theorem of_mem_groupsBy {k : κ} {ys xs : List β} (h : (k, ys) ∈ groupsBy key xs) :
    ys ≠ [] ∧ ys = xs.filter fun x ↦ key x = k := by
  rw [groupsBy, List.mem_map] at h
  obtain ⟨k', hk, heq⟩ := h
  rw [Prod.mk.injEq] at heq
  obtain ⟨rfl, rfl⟩ := heq
  refine ⟨?_, rfl⟩
  obtain ⟨x, hx, hkey⟩ := List.mem_map.mp (mem_of_mem_firstPer hk)
  exact List.ne_nil_of_mem (List.mem_filter.mpr ⟨hx, by simpa using hkey⟩)

/-- The groups together hold every element once. -/
theorem flatMap_groupsBy_perm (key : β → κ) (xs : List β) :
    ((groupsBy key xs).flatMap Prod.snd).Perm xs := by
  refine groupsBy_induction key
    (motive := fun xs groups ↦ (groups.flatMap Prod.snd).Perm xs) ?_ ?_ xs
  · exact .nil
  · intro x xs ih
    have hsplit := List.filter_append_perm (fun y ↦ decide (key y = key x)) xs
    simp only [← decide_not] at hsplit
    rw [List.flatMap_cons, List.cons_append]
    exact .cons x ((ih.append_left _).trans hsplit)

/-- The groups are those of all elements of one key. -/
theorem mem_groupsBy_iff {k : κ} {ys xs : List β} :
    (k, ys) ∈ groupsBy key xs ↔ ys ≠ [] ∧ ys = xs.filter fun x ↦ key x = k := by
  refine ⟨of_mem_groupsBy, ?_⟩
  rintro ⟨hne, rfl⟩
  obtain ⟨x, hx⟩ := List.exists_mem_of_ne_nil _ hne
  obtain ⟨hmem, hkey⟩ := List.mem_filter.mp hx
  obtain ⟨k', hk', heq⟩ := exists_mem_firstPer id (List.mem_map_of_mem (f := key) hmem)
  have hlisted : k ∈ distinct (xs.map key) := by
    have hk : k' = k := heq.trans (of_decide_eq_true hkey)
    exact hk ▸ hk'
  exact List.mem_map_of_mem hlisted

/-- Every key has one group. -/
theorem nodup_keys_groupsBy (key : β → κ) (xs : List β) :
    ((groupsBy key xs).map Prod.fst).Nodup := by
  have hkeys : (groupsBy key xs).map Prod.fst = distinct (xs.map key) := by
    rw [groupsBy, List.map_map]
    exact List.map_id _
  rw [hkeys]
  exact pairwise_firstPer id _

/-- The groups have as many elements as the list. -/
theorem sum_length_groupsBy (key : β → κ) (xs : List β) :
    ((groupsBy key xs).map fun group ↦ group.2.length).sum = xs.length := by
  rw [← (flatMap_groupsBy_perm key xs).length_eq, List.length_flatMap]

/-- The groups come in the order of their first elements. -/
theorem pairwise_head_groupsBy (key : β → κ) {R : β → β → Prop} {xs : List β}
    (h : xs.Pairwise R) :
    (groupsBy key xs).Pairwise fun a b ↦ ∃ x ∈ a.2.head?, ∃ y ∈ b.2.head?, R x y := by
  revert h
  refine groupsBy_induction key (motive := fun xs groups ↦ xs.Pairwise R →
    groups.Pairwise fun a b ↦ ∃ x ∈ a.2.head?, ∃ y ∈ b.2.head?, R x y) ?_ ?_ xs
  · intro _
    exact .nil
  · intro x xs ih h
    obtain ⟨hfirst, hrest⟩ := List.pairwise_cons.mp h
    refine .cons ?_ (ih (hrest.filter _))
    rintro ⟨k, ys⟩ hgroup
    obtain ⟨hne, hys⟩ := of_mem_groupsBy hgroup
    obtain ⟨y, tail, rfl⟩ := List.exists_cons_of_ne_nil hne
    have hy : y ∈ xs.filter fun y ↦ key y ≠ key x := by
      have hmem : y ∈ y :: tail := List.mem_cons_self
      rw [hys] at hmem
      exact (List.mem_filter.mp hmem).1
    exact ⟨x, rfl, y, rfl, hfirst y (List.mem_filter.mp hy).1⟩

/-- The groups of images are the images of the groups. -/
theorem groupsBy_map (key : γ → κ) (f : β → γ) (xs : List β) :
    groupsBy key (xs.map f) =
      (groupsBy (fun x ↦ key (f x)) xs).map fun group ↦ (group.1, group.2.map f) := by
  simp only [groupsBy, List.map_map, List.filter_map, Function.comp_def]

end NearClone.Listing
