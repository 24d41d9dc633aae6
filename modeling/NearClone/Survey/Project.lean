import NearClone.Listing.Assigned
import NearClone.Listing.Total
import NearClone.Survey.Report

/-!
The survey of a whole project: every file for itself, and all files together where the scope is the
project. A failure in one file does not keep the others from being looked at.
-/

set_option autoImplicit false
set_option relaxedAutoImplicit false

namespace NearClone

/-- What a survey has found in a project. -/
structure ProjectReport (α : Type) where
  /-- The reports on single files, by file name. -/
  reports : List (Report α)
  /-- The message of every file that failed. -/
  failures : List (String × String) := []
  /-- The report on all files together. -/
  whole : Option (Report α) := none

namespace ProjectReport

variable {α : Type}

/-- The number of clone pairs in the reports on single files. -/
def duplicates (p : ProjectReport α) : Nat := Listing.total (·.duplicates.length) p.reports

/-- The number of clusters in the reports on single files. -/
def clusters (p : ProjectReport α) : Nat := Listing.total (·.clusters.length) p.reports

end ProjectReport

/-- A file name with the candidates of that file. -/
abbrev FileEntry := String × List (Option Fragment)

namespace Survey

variable {α : Type} [Scalar α]

/-- The name under which all files together are reported. -/
def projectName : String := "<project>"

/-- One entry for every file name, by name; of several the last one counts. -/
def entriesOf (files : List FileEntry) : List FileEntry :=
  Listing.sortBy (compareOn (·.1)) (Listing.assignAll files)

/-- The outcome for every file, one after the other. -/
def scanFiles (s : Survey α) (w : Watch α) :
    List FileEntry → Nat → List (FileEntry × Except String (Report α)) × Nat
  | [], reads => ([], reads)
  | entry :: rest, reads =>
    let (outcome, reads) := s.report w entry.1 entry.2 reads
    let (outcomes, reads) := scanFiles s w rest reads
    ((entry, outcome) :: outcomes, reads)

/-- The outcomes that are reports. -/
def reportsOf (outcomes : List (FileEntry × Except String (Report α))) : List (Report α) :=
  outcomes.filterMap fun (_, outcome) ↦ outcome.toOption

/-- The messages of the outcomes that are failures, by file name. -/
def failuresOf (outcomes : List (FileEntry × Except String (Report α))) : List (String × String) :=
  outcomes.filterMap fun (entry, outcome) ↦
    match outcome with
    | .ok _ => none
    | .error message => some (entry.1, message)

/-- The candidates of the files that did not fail. -/
def remaining (outcomes : List (FileEntry × Except String (Report α))) : List (Option Fragment) :=
  outcomes.flatMap fun (entry, outcome) ↦
    match outcome with
    | .ok _ => entry.2
    | .error _ => []

/-- The survey of a project. One time budget covers all of it. -/
def project (s : Survey α) (clock : Clock α) (files : List FileEntry) : ProjectReport α :=
  let (w, reads) := Watch.start clock s.config.timeBudget 0
  let (outcomes, reads) := s.scanFiles w (entriesOf files) reads
  let reports := reportsOf outcomes
  let failures := failuresOf outcomes
  if s.config.effectiveScope = .project then
    match (s.report w projectName (remaining outcomes) reads).1 with
    | .ok report => { reports, failures, whole := some report }
    | .error message => { reports, failures := Listing.assign projectName message failures }
  else { reports, failures }

end Survey

end NearClone
