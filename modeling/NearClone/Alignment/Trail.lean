import NearClone.Source.Statement

/-!
The best chain of matches between two lists of statements. Longer chains are better, and among
equally long ones those with more matches of equal fine shape. The lists are given backwards, so
that the position of the first statement is the number of those behind it.
-/

set_option autoImplicit false
set_option relaxedAutoImplicit false

namespace NearClone.Alignment

/-- A chain of matches, the last one first, with its worth. -/
structure Trail where
  /-- The number of matches. -/
  coarse : Nat := 0
  /-- The number of matches of equal fine shape. -/
  fine : Nat := 0
  chain : List (Nat × Nat) := []
  deriving DecidableEq, Repr

namespace Trail

/-- Whether the first trail is worth at least as much as the second. -/
def covers (a b : Trail) : Bool := b.coarse < a.coarse || (b.coarse = a.coarse && b.fine ≤ a.fine)

/-- The better of two trails, the first one if they are worth the same. -/
def best (a b : Trail) : Trail := if a.covers b then a else b

/-- The trail with one more match. -/
def extend (t : Trail) (isFine : Bool) (i j : Nat) : Trail where
  coarse := t.coarse + 1
  fine := t.fine + (if isFine then 1 else 0)
  chain := (i, j) :: t.chain

end Trail

/-- The best trail of `s :: ss` and `t :: ts` from those of the shorter lists: without `s`, without
`t`, and without both. The two are matched whenever that is possible at no loss. -/
def chooseTrail (s t : Statement) (i j : Nat) (withoutLeft withoutRight withoutBoth : Trail) :
    Trail :=
  let skipped := withoutLeft.best withoutRight
  if s.shape = t.shape then
    let taken := withoutBoth.extend (s.fineShape = t.fineShape) i j
    if taken.covers skipped then taken else skipped
  else skipped

/-- The row of `s :: ss` from the row of `ss`, where `i` is the position of `s` and the second list
has `count` statements. Entry `k` of a row is the best trail against the second list without its
first `k` statements. -/
def nextTrails (i : Nat) (s : Statement) : (count : Nat) → List Statement → List Trail → List Trail
  | j + 1, t :: ts, withoutLeft :: withoutBoth :: rest =>
    let row := nextTrails i s j ts (withoutBoth :: rest)
    chooseTrail s t i j withoutLeft (row.headD {}) withoutBoth :: row
  | _, _, _ => [{}]

/-- The number of statements of a list, given backwards, and its row against a second one. -/
def countedTrails (ts : List Statement) : List Statement → Nat × List Trail
  | [] => (0, List.replicate (ts.length + 1) {})
  | s :: ss =>
    let (i, row) := countedTrails ts ss
    (i + 1, nextTrails i s ts.length ts row)

/-- The row of a list of statements, given backwards, against a second one. -/
def trails (ss ts : List Statement) : List Trail := (countedTrails ts ss).2

/-- The best trail of two lists of statements, given backwards. -/
def bestTrail (ss ts : List Statement) : Trail := (trails ss ts).headD {}

theorem countedTrails_fst (ss ts : List Statement) : (countedTrails ts ss).1 = ss.length := by
  induction ss with
  | nil => rfl
  | cons s ss ih => exact congrArg (· + 1) ih

@[simp]
theorem trails_nil_left (ts : List Statement) : trails [] ts = List.replicate (ts.length + 1) {} :=
  rfl

/-- A row follows from that of the list without its first statement. -/
theorem trails_cons_left (s : Statement) (ss ts : List Statement) :
    trails (s :: ss) ts = nextTrails ss.length s ts.length ts (trails ss ts) := by
  rw [← countedTrails_fst ss ts]
  rfl

theorem trails_ne_nil (ss ts : List Statement) : trails ss ts ≠ [] := by
  cases ss with
  | nil => simp [List.replicate_succ]
  | cons s ss =>
    rw [trails_cons_left]
    unfold nextTrails
    split <;> simp

/-- A row of a longer second list is the row of the shorter one behind one more entry. -/
theorem trails_cons (ss : List Statement) (t : Statement) (ts : List Statement) :
    trails ss (t :: ts) = bestTrail ss (t :: ts) :: trails ss ts := by
  induction ss with
  | nil => simp [bestTrail, List.replicate_succ]
  | cons s ss ih =>
    obtain ⟨d, rest, hd⟩ := List.exists_cons_of_ne_nil (trails_ne_nil ss ts)
    have hrow : trails (s :: ss) (t :: ts) =
        nextTrails ss.length s (ts.length + 1) (t :: ts)
          (bestTrail ss (t :: ts) :: d :: rest) := by
      rw [trails_cons_left, ih, hd, List.length_cons]
    have hshort : trails (s :: ss) ts = nextTrails ss.length s ts.length ts (d :: rest) := by
      rw [trails_cons_left, hd]
    rw [bestTrail, hrow, hshort]
    rfl

@[simp]
theorem bestTrail_nil_left (ts : List Statement) : bestTrail [] ts = {} := by
  simp [bestTrail, List.replicate_succ]

@[simp]
theorem bestTrail_nil_right (ss : List Statement) : bestTrail ss [] = {} := by
  cases ss with
  | nil => rfl
  | cons s ss =>
    rw [bestTrail, trails_cons_left]
    rfl

/-- The best trail is chosen among those that leave out a statement and the one that matches
both. -/
theorem bestTrail_cons_cons (s t : Statement) (ss ts : List Statement) :
    bestTrail (s :: ss) (t :: ts) =
      chooseTrail s t ss.length ts.length (bestTrail ss (t :: ts)) (bestTrail (s :: ss) ts)
        (bestTrail ss ts) := by
  obtain ⟨d, rest, hd⟩ := List.exists_cons_of_ne_nil (trails_ne_nil ss ts)
  obtain ⟨e, more, he⟩ := List.exists_cons_of_ne_nil (trails_ne_nil (s :: ss) ts)
  have hboth : bestTrail ss ts = d := by simp [bestTrail, hd]
  have hright : bestTrail (s :: ss) ts = e := by simp [bestTrail, he]
  have hnext : nextTrails ss.length s ts.length ts (d :: rest) = e :: more := by
    rw [← he, trails_cons_left, hd]
  have hrow : trails (s :: ss) (t :: ts) =
      nextTrails ss.length s (ts.length + 1) (t :: ts) (bestTrail ss (t :: ts) :: d :: rest) := by
    rw [trails_cons_left, trails_cons ss t ts, hd, List.length_cons]
  rw [hboth, hright, bestTrail, hrow, nextTrails, hnext]
  rfl

end NearClone.Alignment
