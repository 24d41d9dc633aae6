import NearClone.Alignment.Trail
import NearClone.Proofs.Listing.Shared

/-!
# Best chains of matches

A best trail of two lists is either empty, or a best trail of shorter lists, or such a trail with
one more match; `bestTrail_induction` is the induction that goes with these cases. It gives what every
trail is like: its worth counts its matches (`coarse_bestTrail`, `fine_bestTrail_le`), it descends
within the two lists (`descends_bestTrail`), and it has no more matches than the lists share shapes
(`coarse_bestTrail_le_sharedCount`), and no fewer than any common part of their shapes has elements
(`length_le_coarse_bestTrail`). It depends on the outlines of the statements alone
(`bestTrail_congr`), and the best trail of a list and itself is the diagonal (`bestTrail_self`).
-/

set_option autoImplicit false
set_option relaxedAutoImplicit false

namespace NearClone

/-- What alignment sees of a statement: its shape, coarse and fine. -/
def Statement.outline (s : Statement) : String × String := (s.shape, s.fineShape)

namespace Alignment

open Listing

/-! ### How a best trail arises -/

/-- The better of two trails is one of them. -/
theorem Trail.best_eq_or_eq (a b : Trail) : a.best b = a ∨ a.best b = b := by
  unfold Trail.best
  split
  · exact Or.inl rfl
  · exact Or.inr rfl

/-- A chosen trail leaves out one of the two statements, or matches them. -/
theorem chooseTrail_cases (s t : Statement) (i j : ℕ)
    (withoutLeft withoutRight withoutBoth : Trail) :
    chooseTrail s t i j withoutLeft withoutRight withoutBoth = withoutLeft ∨
      chooseTrail s t i j withoutLeft withoutRight withoutBoth = withoutRight ∨
      s.shape = t.shape ∧ chooseTrail s t i j withoutLeft withoutRight withoutBoth =
        withoutBoth.extend (s.fineShape = t.fineShape) i j := by
  have hskipped := Trail.best_eq_or_eq withoutLeft withoutRight
  simp only [chooseTrail]
  by_cases hshape : s.shape = t.shape
  · rw [if_pos hshape]
    split
    · exact Or.inr (Or.inr ⟨hshape, rfl⟩)
    · rcases hskipped with hleft | hright
      · exact Or.inl hleft
      · exact Or.inr (Or.inl hright)
  · rw [if_neg hshape]
    rcases hskipped with hleft | hright
    · exact Or.inl hleft
    · exact Or.inr (Or.inl hright)

/-- What holds of empty trails, and is kept when a list grows and when a match is added, holds of
every best trail. -/
theorem bestTrail_induction {motive : List Statement → List Statement → Trail → Prop}
    (empty : ∀ ss ts, motive ss ts {})
    (skipLeft : ∀ s ss ts trail, motive ss ts trail → motive (s :: ss) ts trail)
    (skipRight : ∀ t ss ts trail, motive ss ts trail → motive ss (t :: ts) trail)
    (take : ∀ s t ss ts trail, s.shape = t.shape → motive ss ts trail →
      motive (s :: ss) (t :: ts)
        (trail.extend (s.fineShape = t.fineShape) ss.length ts.length))
    (ss ts : List Statement) : motive ss ts (bestTrail ss ts) := by
  induction ss generalizing ts with
  | nil =>
    rw [bestTrail_nil_left]
    exact empty [] ts
  | cons s ss ihs =>
    induction ts with
    | nil =>
      rw [bestTrail_nil_right]
      exact empty (s :: ss) []
    | cons t ts iht =>
      rw [bestTrail_cons_cons]
      rcases chooseTrail_cases s t ss.length ts.length (bestTrail ss (t :: ts))
        (bestTrail (s :: ss) ts) (bestTrail ss ts) with hleft | hright | ⟨hshape, htake⟩
      · rw [hleft]
        exact skipLeft s ss (t :: ts) _ (ihs (t :: ts))
      · rw [hright]
        exact skipRight t (s :: ss) ts _ iht
      · rw [htake]
        exact take s t ss ts _ hshape (ihs ts)

/-! ### Worth -/

/-- The first measure of worth counts the matches. -/
theorem coarse_bestTrail (ss ts : List Statement) :
    (bestTrail ss ts).coarse = (bestTrail ss ts).chain.length := by
  refine bestTrail_induction (motive := fun _ _ trail ↦ trail.coarse = trail.chain.length)
    ?_ ?_ ?_ ?_ ss ts
  · intro _ _
    rfl
  · intro _ _ _ _ ih
    exact ih
  · intro _ _ _ _ ih
    exact ih
  · intro _ _ _ _ _ _ ih
    exact congrArg (· + 1) ih

/-- No more matches are fine than there are matches. -/
theorem fine_bestTrail_le (ss ts : List Statement) :
    (bestTrail ss ts).fine ≤ (bestTrail ss ts).coarse := by
  refine bestTrail_induction (motive := fun _ _ trail ↦ trail.fine ≤ trail.coarse)
    ?_ ?_ ?_ ?_ ss ts
  · intro _ _
    exact Nat.le_refl 0
  · intro _ _ _ _ ih
    exact ih
  · intro _ _ _ _ ih
    exact ih
  · intro _ _ _ _ _ _ ih
    simp only [Trail.extend]
    split <;> omega

/-- No more statements are matched than the two lists share shapes. -/
theorem coarse_bestTrail_le_sharedCount (ss ts : List Statement) :
    (bestTrail ss ts).coarse ≤ sharedCount (ss.map (·.shape)) (ts.map (·.shape)) := by
  refine bestTrail_induction
    (motive := fun ss ts trail ↦
      trail.coarse ≤ sharedCount (ss.map (·.shape)) (ts.map (·.shape))) ?_ ?_ ?_ ?_ ss ts
  · intro _ _
    exact Nat.zero_le _
  · intro s _ _ _ ih
    exact ih.trans (sharedCount_le_cons_left s.shape _ _)
  · intro t _ _ _ ih
    exact ih.trans (sharedCount_le_cons_right t.shape _ _)
  · intro s t ss ts _ hshape ih
    rw [List.map_cons, List.map_cons, hshape, sharedCount_cons_cons]
    exact Nat.succ_le_succ ih

/-- No more statements are matched than the first list has. -/
theorem coarse_bestTrail_le_left (ss ts : List Statement) :
    (bestTrail ss ts).coarse ≤ ss.length := by
  have hshared := sharedCount_le_left (ss.map (·.shape)) (ts.map (·.shape))
  rw [List.length_map] at hshared
  exact (coarse_bestTrail_le_sharedCount ss ts).trans hshared

/-- No more statements are matched than the second list has. -/
theorem coarse_bestTrail_le_right (ss ts : List Statement) :
    (bestTrail ss ts).coarse ≤ ts.length := by
  have hshared := sharedCount_le_right (ss.map (·.shape)) (ts.map (·.shape))
  rw [List.length_map] at hshared
  exact (coarse_bestTrail_le_sharedCount ss ts).trans hshared

/-! ### Common parts -/

/-- Of two trails the better one has the more matches. -/
theorem Trail.coarse_best (a b : Trail) : (a.best b).coarse = max a.coarse b.coarse := by
  unfold best
  split
  · next hcovers =>
    simp only [covers, Bool.or_eq_true, Bool.and_eq_true, decide_eq_true_eq] at hcovers
    omega
  · next hcovers =>
    simp only [covers, Bool.or_eq_true, Bool.and_eq_true, decide_eq_true_eq] at hcovers
    omega

/-- A best trail has as many matches as the best of the trails that leave out a statement, or one
more than without both of them if these have the same shape. -/
theorem coarse_bestTrail_cons_cons (s t : Statement) (ss ts : List Statement) :
    (bestTrail (s :: ss) (t :: ts)).coarse =
      max (max (bestTrail ss (t :: ts)).coarse (bestTrail (s :: ss) ts).coarse)
        (if s.shape = t.shape then (bestTrail ss ts).coarse + 1 else 0) := by
  have htaken : ((bestTrail ss ts).extend (s.fineShape = t.fineShape) ss.length
      ts.length).coarse = (bestTrail ss ts).coarse + 1 := rfl
  rw [bestTrail_cons_cons, ← Trail.coarse_best, ← htaken, max_comm]
  simp only [chooseTrail]
  split
  · exact Trail.coarse_best _ _
  · exact (Nat.zero_max _).symm

/-- No common part of the shapes of two lists is longer than the best trail. -/
theorem length_le_coarse_bestTrail {shapes : List String} {ss ts : List Statement}
    (hs : shapes.Sublist (ss.map (·.shape))) (ht : shapes.Sublist (ts.map (·.shape))) :
    shapes.length ≤ (bestTrail ss ts).coarse := by
  induction ss generalizing shapes ts with
  | nil =>
    obtain rfl := List.sublist_nil.mp hs
    exact Nat.zero_le _
  | cons s ss ihs =>
    induction ts generalizing shapes with
    | nil =>
      obtain rfl := List.sublist_nil.mp ht
      exact Nat.zero_le _
    | cons t ts iht =>
      rw [coarse_bestTrail_cons_cons]
      rcases List.sublist_cons_iff.mp hs with hskip | ⟨rest, rfl, hs'⟩
      · have hlength := ihs hskip ht
        omega
      rcases List.sublist_cons_iff.mp ht with hskip | ⟨rest', hcons, ht'⟩
      · have hlength := iht hs hskip
        omega
      · obtain ⟨hshape, rfl⟩ := List.cons.inj hcons
        have hlength := ihs hs' ht'
        rw [if_pos hshape, List.length_cons]
        omega

/-! ### Order -/

/-- The pairs of a chain go down strictly on both sides, and stay below `n` and `m`. -/
def Descends : ℕ → ℕ → List (ℕ × ℕ) → Prop
  | _, _, [] => True
  | n, m, (i, j) :: rest => i < n ∧ j < m ∧ Descends i j rest

/-- A chain that stays below two bounds stays below larger ones. -/
theorem Descends.mono {n m n' m' : ℕ} {chain : List (ℕ × ℕ)} (h : Descends n m chain)
    (hn : n ≤ n') (hm : m ≤ m') : Descends n' m' chain := by
  cases chain with
  | nil => trivial
  | cons p rest => exact ⟨h.1.trans_le hn, h.2.1.trans_le hm, h.2.2⟩

/-- The chain of a best trail goes down strictly from the ends of the two lists. -/
theorem descends_bestTrail (ss ts : List Statement) :
    Descends ss.length ts.length (bestTrail ss ts).chain := by
  refine bestTrail_induction
    (motive := fun ss ts trail ↦ Descends ss.length ts.length trail.chain) ?_ ?_ ?_ ?_ ss ts
  · intro _ _
    trivial
  · intro _ ss _ _ ih
    exact ih.mono (Nat.le_succ ss.length) le_rfl
  · intro _ _ ts _ ih
    exact ih.mono le_rfl (Nat.le_succ ts.length)
  · intro _ _ ss ts _ _ ih
    exact ⟨Nat.lt_succ_self ss.length, Nat.lt_succ_self ts.length, ih⟩

/-! ### Outlines -/

/-- A trail is chosen by the shapes of the two statements alone. -/
theorem chooseTrail_congr {s s' t t' : Statement} (hs : s.outline = s'.outline)
    (ht : t.outline = t'.outline) (i j : ℕ) (withoutLeft withoutRight withoutBoth : Trail) :
    chooseTrail s t i j withoutLeft withoutRight withoutBoth =
      chooseTrail s' t' i j withoutLeft withoutRight withoutBoth := by
  simp only [Statement.outline, Prod.mk.injEq] at hs ht
  simp only [chooseTrail, hs.1, hs.2, ht.1, ht.2]

/-- Lists of equal outlines have the same best trails. -/
theorem bestTrail_congr {ss ss' ts ts' : List Statement}
    (hs : ss.map Statement.outline = ss'.map Statement.outline)
    (ht : ts.map Statement.outline = ts'.map Statement.outline) :
    bestTrail ss ts = bestTrail ss' ts' := by
  induction ss generalizing ss' ts ts' with
  | nil =>
    cases ss' with
    | nil => rw [bestTrail_nil_left, bestTrail_nil_left]
    | cons s' ss' => simp at hs
  | cons s ss ihs =>
    cases ss' with
    | nil => simp at hs
    | cons s' ss' =>
      simp only [List.map_cons, List.cons.injEq] at hs
      induction ts generalizing ts' with
      | nil =>
        cases ts' with
        | nil => rw [bestTrail_nil_right, bestTrail_nil_right]
        | cons t' ts' => simp at ht
      | cons t ts iht =>
        cases ts' with
        | nil => simp at ht
        | cons t' ts' =>
          have hsLength : ss.length = ss'.length := by
            simpa using congrArg List.length hs.2
          have htLength : ts.length = ts'.length := by
            simpa using congrArg List.length ht
          have hleft := ihs hs.2 ht
          simp only [List.map_cons, List.cons.injEq] at ht
          rw [bestTrail_cons_cons, bestTrail_cons_cons, hleft, ihs hs.2 ht.2, iht ht.2, hsLength,
            htLength, chooseTrail_congr hs.1 ht.1]

/-- The trail that matches every statement with the one at the same position. -/
def diagonal : ℕ → Trail
  | 0 => {}
  | n + 1 => (diagonal n).extend true n n

@[simp]
theorem coarse_diagonal (n : ℕ) : (diagonal n).coarse = n := by
  induction n with
  | zero => rfl
  | succ n ih => exact congrArg (· + 1) ih

@[simp]
theorem fine_diagonal (n : ℕ) : (diagonal n).fine = n := by
  induction n with
  | zero => rfl
  | succ n ih => exact congrArg (· + 1) ih

/-- The best trail of a list and itself is the diagonal: every other one has fewer matches. -/
theorem bestTrail_self (ss : List Statement) : bestTrail ss ss = diagonal ss.length := by
  induction ss with
  | nil => rw [bestTrail_nil_left]; rfl
  | cons s ss ih =>
    have hskipped : ((bestTrail ss (s :: ss)).best (bestTrail (s :: ss) ss)).coarse <
        ss.length + 1 := by
      have hleft := coarse_bestTrail_le_left ss (s :: ss)
      have hright := coarse_bestTrail_le_right (s :: ss) ss
      rcases Trail.best_eq_or_eq (bestTrail ss (s :: ss)) (bestTrail (s :: ss) ss) with h | h
      · rw [h]
        omega
      · rw [h]
        omega
    have htaken : (bestTrail ss ss).extend true ss.length ss.length =
        diagonal (ss.length + 1) := by
      rw [ih]
      rfl
    have hcovers : (diagonal (ss.length + 1)).covers
        ((bestTrail ss (s :: ss)).best (bestTrail (s :: ss) ss)) = true := by
      simp [Trail.covers, hskipped]
    simp only [bestTrail_cons_cons, chooseTrail, decide_true, ↓reduceIte]
    rw [htaken, if_pos hcovers, List.length_cons]

end Alignment

end NearClone
