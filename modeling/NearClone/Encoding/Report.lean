import NearClone.Encoding.Cluster
import NearClone.Form.Config
import NearClone.Survey.Project

/-!
Reports as documents.
-/

set_option autoImplicit false
set_option relaxedAutoImplicit false

namespace NearClone

variable {α : Type} [Numeral α]

namespace Report

/-- A report in one line. -/
def summary (r : Report α) : String :=
  let found :=
    s!"{r.duplicates.length} duplicates in {r.clusters.length} clusters "
      ++ s!"({r.candidates} sequences, {r.compared} comparisons)"
  if r.truncated then found ++ " [truncated: time budget exceeded]" else found

/-- A report as a document. -/
def document (r : Report α) : Document α :=
  .object
    [("source_file", .text r.source),
     ("duplicate_count", .nat r.duplicates.length),
     ("duplicates", .list (r.duplicates.map ClonePair.document)),
     ("clusters", .list (r.clusters.map Cluster.document)),
     ("total_sequences", .nat r.candidates),
     ("candidates_compared", .nat r.compared),
     ("truncated", .flag r.truncated),
     ("summary", .text r.summary),
     ("config", r.config.document)]

end Report

namespace ProjectReport

/-- A report on a project as a document. -/
def document (p : ProjectReport α) : Document α :=
  .object
    [("files_analyzed", .nat p.reports.length),
     ("total_duplicates", .nat p.duplicates),
     ("total_clusters", .nat p.clusters),
     ("reports", .list (p.reports.map Report.document)),
     ("project_report", p.whole.elim .null Report.document),
     ("failures", .object (p.failures.map fun (file, message) ↦ (file, .text message)))]

end ProjectReport

end NearClone
