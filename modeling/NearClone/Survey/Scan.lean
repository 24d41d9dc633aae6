import NearClone.Filter
import NearClone.Survey.Clock

/-!
Comparing all pairs of candidates. Row by row a candidate is compared with every later one; the
clock is looked at before each pair, and a row ends early when the deadline has passed.
-/

set_option autoImplicit false
set_option relaxedAutoImplicit false

namespace NearClone

/-- How to look for clones. Comparison is a parameter and may fail. -/
structure Survey (α : Type) where
  config : Config α
  filters : List Filter := Filter.standard
  compare : Fragment → Fragment → Except String (Similarity α)

/-- What comparing pairs has found so far. -/
structure Scan (α : Type) where
  accepted : List (ClonePair α) := []
  compared : Nat := 0
  truncated : Bool := false

namespace Scan

variable {α : Type}

/-- Two scans one after the other. -/
def append (a b : Scan α) : Scan α where
  accepted := a.accepted ++ b.accepted
  compared := a.compared + b.compared
  truncated := a.truncated || b.truncated

end Scan

namespace Survey

variable {α : Type} [Scalar α]

/-- The survey that a configuration asks for. -/
def ofConfig (c : Config α) : Survey α where
  config := c
  compare f g := .ok (Similarity.compare c.weights f g)

/-- The scan of one compared pair. -/
def judge (s : Survey α) (f g : Fragment) (similarity : Similarity α) : Scan α where
  accepted := if s.config.accepts f g similarity then [⟨f, g, similarity⟩] else []
  compared := 1

/-- Compares a fragment with each of those behind it. With the outcome comes the count of clock
readings, which a failure does not take back. -/
def scanRow (s : Survey α) (w : Watch α) (f : Fragment) :
    List Fragment → Nat → Except String (Scan α) × Nat
  | [], reads => (.ok {}, reads)
  | g :: rest, reads =>
    let (late, reads) := w.check reads
    if late then (.ok { truncated := true }, reads)
    else if Filter.admitsAll s.config s.filters f g then
      match s.compare f g with
      | .error message => (.error message, reads)
      | .ok similarity =>
        let (tail, reads) := scanRow s w f rest reads
        (tail.map (s.judge f g similarity).append, reads)
    else scanRow s w f rest reads

/-- Compares every fragment with each of those behind it. The first failure ends the scan. -/
def scanRows (s : Survey α) (w : Watch α) :
    List Fragment → Nat → Except String (Scan α) × Nat
  | [], reads => (.ok {}, reads)
  | f :: rest, reads =>
    match scanRow s w f rest reads with
    | (.error message, reads) => (.error message, reads)
    | (.ok row, reads) =>
      let (tail, reads) := scanRows s w rest reads
      (tail.map row.append, reads)

end Survey

end NearClone
