/-!
The edit distance of two lists: how many insertions, deletions and substitutions of single elements
turn one into the other. The table is kept one row at a time, and a row has one entry for every
end of the second list.
-/

set_option autoImplicit false
set_option relaxedAutoImplicit false

namespace NearClone.EditDistance

variable {κ : Type} [DecidableEq κ]

/-- The row of `x :: xs` from the row of `xs`. Entry `k` of a row is the distance from its list to
the second list without its first `k` elements; the last one counts what must be deleted. -/
def nextRow (x : κ) : List κ → List Nat → List Nat
  | y :: ys, above :: diagonal :: rest =>
    let row := nextRow x ys (diagonal :: rest)
    let left := row.headD 0
    let change := if x = y then diagonal else diagonal + 1
    min (min (above + 1) (left + 1)) change :: row
  | _, above => [above.headD 0 + 1]

/-- The row of the empty list: everything must be inserted. -/
def emptyRow : List κ → List Nat
  | [] => [0]
  | _ :: ys =>
    let row := emptyRow ys
    (row.headD 0 + 1) :: row

/-- The row of a list against a second one. -/
def row : List κ → List κ → List Nat
  | [], ys => emptyRow ys
  | x :: xs, ys => nextRow x ys (row xs ys)

/-- The edit distance of two lists. -/
def distance (xs ys : List κ) : Nat := (row xs ys).headD 0

theorem row_ne_nil (xs ys : List κ) : row xs ys ≠ [] := by
  cases xs with
  | nil => cases ys <;> simp [row, emptyRow]
  | cons x xs =>
    simp only [row]
    unfold nextRow
    split <;> simp

/-- A row of a longer second list is the row of the shorter one behind one more entry. -/
theorem row_cons (xs : List κ) (y : κ) (ys : List κ) :
    row xs (y :: ys) = distance xs (y :: ys) :: row xs ys := by
  induction xs with
  | nil => rfl
  | cons x xs ih =>
    obtain ⟨d, rest, hd⟩ := List.exists_cons_of_ne_nil (row_ne_nil xs ys)
    have hrow : row (x :: xs) (y :: ys) =
        nextRow x (y :: ys) (distance xs (y :: ys) :: d :: rest) := by
      rw [row, ih, hd]
    have hshort : row (x :: xs) ys = nextRow x ys (d :: rest) := by
      rw [row, hd]
    rw [distance, hrow, hshort]
    rfl

@[simp]
theorem distance_nil_left (ys : List κ) : distance [] ys = ys.length := by
  induction ys with
  | nil => rfl
  | cons y ys ih => exact congrArg (· + 1) ih

@[simp]
theorem distance_nil_right (xs : List κ) : distance xs [] = xs.length := by
  induction xs with
  | nil => rfl
  | cons x xs ih =>
    rw [distance, row, nextRow]
    · exact congrArg (· + 1) ih
    · simp

/-- Either the first element is deleted, or one is inserted before it, or it is kept or replaced. -/
theorem distance_cons_cons (x y : κ) (xs ys : List κ) :
    distance (x :: xs) (y :: ys) =
      min (min (distance xs (y :: ys) + 1) (distance (x :: xs) ys + 1))
        (if x = y then distance xs ys else distance xs ys + 1) := by
  obtain ⟨d, rest, hd⟩ := List.exists_cons_of_ne_nil (row_ne_nil xs ys)
  obtain ⟨e, more, he⟩ := List.exists_cons_of_ne_nil (row_ne_nil (x :: xs) ys)
  have hdist : distance xs ys = d := by simp [distance, hd]
  have hleft : distance (x :: xs) ys = e := by simp [distance, he]
  have hnext : nextRow x ys (d :: rest) = e :: more := by
    rw [← he, row, hd]
  have hrow : row (x :: xs) (y :: ys) =
      nextRow x (y :: ys) (distance xs (y :: ys) :: d :: rest) := by
    rw [row, row_cons xs y ys, hd]
  rw [hdist, hleft, distance, hrow, nextRow, hnext]
  rfl

end NearClone.EditDistance
