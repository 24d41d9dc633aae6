import NearClone.Listing.Place

/-!
Disjoint sets over indices `0, 1, …`, kept as a forest of parent links. Looking up the root of an
index shortens the path it walked, and the root of lower rank is hung below the other one.
-/

set_option autoImplicit false
set_option relaxedAutoImplicit false

namespace NearClone

/-- Parent and rank of every index; a root is its own parent. -/
structure Forest where
  parent : Array Nat := #[]
  rank : Array Nat := #[]
  deriving DecidableEq, Repr

namespace Forest

/-- The number of indices. -/
def size (f : Forest) : Nat := f.parent.size

/-- The parent of an index; an index beyond the end is its own parent. -/
def parentOf (f : Forest) (i : Nat) : Nat := f.parent[i]?.getD i

/-- The rank of an index. -/
def rankOf (f : Forest) (i : Nat) : Nat := f.rank[i]?.getD 0

/-- Adds a set of one new index. -/
def add (f : Forest) : Forest where
  parent := f.parent.push f.size
  rank := f.rank.push 0

/-- Follows parent links for at most so many steps. -/
def climb (f : Forest) : Nat → Nat → Nat
  | 0, i => i
  | steps + 1, i => if f.parentOf i = i then i else climb f steps (f.parentOf i)

/-- The root of the tree that holds an index. A path has fewer links than there are indices. -/
def root (f : Forest) (i : Nat) : Nat := f.climb f.size i

/-- Hangs an index below another one. -/
def setParent (f : Forest) (i p : Nat) : Forest := { f with parent := f.parent.setIfInBounds i p }

/-- Hangs every index on the path from `i` to `top` directly below `top`, for at most so many
links. -/
def shorten (top : Nat) : Nat → Nat → Forest → Forest
  | 0, _, f => f
  | steps + 1, i, f =>
    let next := f.parentOf i
    if next = top then f else shorten top steps next (f.setParent i top)

/-- Shortens the path from an index to its root. -/
def compress (f : Forest) (i : Nat) : Forest := shorten (f.root i) f.size i f

/-- Joins two trees, given their roots: the lower rank goes below, and between equal ranks the
second root goes below the first, whose rank grows. -/
def link (f : Forest) (a b : Nat) : Forest :=
  if a = b then f
  else
    let top := if f.rankOf a < f.rankOf b then b else a
    let low := if f.rankOf a < f.rankOf b then a else b
    let joined := f.setParent low top
    if f.rankOf top = f.rankOf low then
      { joined with rank := joined.rank.setIfInBounds top (f.rankOf top + 1) }
    else joined

/-- What can be asked of a forest. -/
inductive Call where
  | add
  | find (i : Nat)
  | union (i j : Nat)
  deriving DecidableEq, Repr

/-- What a call answers. -/
inductive Answer where
  /-- The index that was added. -/
  | added (i : Nat)
  /-- The root of an index. -/
  | found (root : Nat)
  /-- Two sets were joined, or were one already. -/
  | joined
  /-- An index does not exist. -/
  | missing (flaw : Listing.PlaceFlaw)
  deriving DecidableEq, Repr

/-- Joins the sets of two indices that exist. -/
def union (f : Forest) (i j : Nat) : Forest :=
  let g := (f.compress i).compress j
  g.link (f.root i) ((f.compress i).root j)

/-- Carries out a call. A union whose second index is missing has already shortened the path of its
first one. -/
def run (f : Forest) : Call → Answer × Forest
  | .add => (.added f.size, f.add)
  | .find i => if i < f.size then (.found (f.root i), f.compress i) else (.missing (.ofPlace i), f)
  | .union i j =>
    if i < f.size then
      if j < f.size then (.joined, f.union i j) else (.missing (.ofPlace j), f.compress i)
    else (.missing (.ofPlace i), f)

/-- Carries out calls one after the other. -/
def runAll (f : Forest) (calls : List Call) : Forest := calls.foldl (fun g c ↦ (g.run c).2) f

/-- A forest of so many sets of one index each. -/
def singletons (n : Nat) : Forest where
  parent := Array.range n
  rank := Array.replicate n 0

@[simp]
theorem size_add (f : Forest) : f.add.size = f.size + 1 := by
  simp [add, size]

@[simp]
theorem size_setParent (f : Forest) (i p : Nat) : (f.setParent i p).size = f.size := by
  simp [setParent, size]

@[simp]
theorem size_singletons (n : Nat) : (singletons n).size = n := by
  simp [singletons, size]

@[simp]
theorem size_shorten (top steps i : Nat) (f : Forest) : (shorten top steps i f).size = f.size := by
  induction steps generalizing i f with
  | zero => rfl
  | succ steps ih =>
    simp only [shorten]
    split
    · rfl
    · simp [ih]

@[simp]
theorem size_compress (f : Forest) (i : Nat) : (f.compress i).size = f.size := by
  simp [compress]

@[simp]
theorem size_link (f : Forest) (a b : Nat) : (f.link a b).size = f.size := by
  simp only [link]
  repeat' split
  all_goals simp [setParent, size]

@[simp]
theorem size_union (f : Forest) (i j : Nat) : (f.union i j).size = f.size := by
  simp [union]

end Forest

end NearClone
