import NearClone.Cluster.Advice
import NearClone.Cluster.Grouping
import NearClone.Survey.Scan

/-!
The report on a list of candidate fragments: clone pairs by score, and clusters with advice.
-/

set_option autoImplicit false
set_option relaxedAutoImplicit false

namespace NearClone

/-- What a survey has found in one file, or in a whole project. -/
structure Report (α : Type) where
  source : String
  duplicates : List (ClonePair α)
  clusters : List (Cluster α)
  /-- The number of usable candidates. -/
  candidates : Nat
  /-- The number of pairs that were compared. -/
  compared : Nat
  config : Config α
  /-- The time budget ran out. -/
  truncated : Bool := false

namespace ClonePair

variable {α : Type} [Scalar α]

/-- By score, the best first, then by the reading order of the first fragment and the location of
the second. -/
def compareScore : ClonePair α → ClonePair α → Ordering :=
  compareLex (fun p q ↦ Scalar.compare q.similarity.overall p.similarity.overall) <|
    compareLex (fun p q ↦ p.left.compareReading q.left)
      fun p q ↦ p.right.location.compare q.right.location

end ClonePair

namespace Survey

variable {α : Type} [Scalar α]

/-- Whether a candidate can be looked at: it is there, well formed and long enough. -/
def isUsable (c : Config α) (f : Fragment) : Bool := !f.isMalformed && c.admitsLength f

/-- The usable candidates in reading order, the first one given for every location. -/
def candidates (c : Config α) (given : List (Option Fragment)) : List Fragment :=
  Listing.sortBy Fragment.compareReading
    (Listing.firstPer (·.location) ((given.filterMap id).filter (isUsable c)))

/-- The report on the outcome of a scan. -/
def reportOf (c : Config α) (source : String) (candidates : Nat) (scan : Scan α) : Report α :=
  let duplicates := Listing.sortBy ClonePair.compareScore scan.accepted
  { source
    duplicates
    clusters := Cluster.annotate c (Cluster.group c duplicates)
    candidates
    compared := scan.compared
    config := c
    truncated := scan.truncated }

/-- The report on candidates under a watch, with the count of clock readings. -/
def report (s : Survey α) (w : Watch α) (source : String) (given : List (Option Fragment))
    (reads : Nat) : Except String (Report α) × Nat :=
  let usable := candidates s.config given
  let (scan, reads) := s.scanRows w usable reads
  (scan.map (reportOf s.config source usable.length), reads)

/-- The report on the candidates of one file. Without a deadline the time budget sets one. -/
def file (s : Survey α) (clock : Clock α) (deadline : Option (Quantity α))
    (source : String) (given : List (Option Fragment)) : Except String (Report α) :=
  let (w, reads) : Watch α × Nat :=
    match deadline with
    | some _ => (⟨clock, deadline⟩, 0)
    | none => Watch.start clock s.config.timeBudget 0
  (s.report w source given reads).1

end Survey

end NearClone
