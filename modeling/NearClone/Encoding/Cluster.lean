import NearClone.Cluster.Statistics
import NearClone.Encoding.Similarity

/-!
Clusters, advice and statistics as documents and as lines of text.
-/

set_option autoImplicit false
set_option relaxedAutoImplicit false

namespace NearClone

variable {α : Type} [Numeral α]

/-- A share as a whole number of percent. -/
def percent (x : α) : String := Numeral.fixed 0 (x * Scalar.ofInt 100) ++ "%"

namespace Recommendation

/-- The degree of confidence in capitals, with its score. -/
def confidenceText (r : Recommendation α) : String :=
  s!"{r.confidence.name.toUpper} ({percent r.score})"

/-- Advice as a document. -/
def document (r : Recommendation α) : Document α :=
  .object
    [("strategy", .text r.strategy.name),
     ("confidence", .text r.confidence.name),
     ("confidence_score", .number r.score),
     ("suggested_method_name", .ofText? r.methodName),
     ("reasons", .texts r.reasons)]

end Recommendation

namespace Cluster

/-- A cluster in one line. -/
def summary (c : Cluster α) : String :=
  s!"{c.occurrences} occurrences of {c.primary.length} statements starting at "
    ++ s!"{c.primary.file}:{c.primary.range.startLine}, "
    ++ s!"avg similarity {percent c.averageSimilarity}, ~{c.saving} LOC reducible"

/-- A cluster as a document. -/
def document (c : Cluster α) : Document α :=
  .object
    [("primary", c.primary.document),
     ("duplicates", .list (c.pairs.map ClonePair.document)),
     ("occurrence_count", .nat c.occurrences),
     ("estimated_loc_reduction", .int c.saving),
     ("average_similarity", .number c.averageSimilarity),
     ("recommendation", c.recommendation.elim .null Recommendation.document)]

end Cluster

namespace Statistics

/-- Figures as a document. -/
def document (s : Statistics α) : Document α :=
  .object
    [("total_clusters", .nat s.clusters),
     ("total_occurrences", .nat s.occurrences),
     ("avg_cluster_size", .number s.averageSize),
     ("avg_similarity", .number s.averageSimilarity),
     ("total_loc_reduction", .int s.saving),
     ("size_distribution", .object (s.sizes.map fun (size, n) ↦ (size.name, .nat n))),
     ("largest_cluster_size", .nat s.largest),
     ("smallest_cluster_size", .nat s.smallest)]

/-- The figures about clusters as a document; for no clusters they are whole zeros. -/
def documentOf (clusters : List (Cluster α)) : Document α :=
  match ofClusters? clusters with
  | some s => s.document
  | none =>
    .object
      [("total_clusters", .int 0),
       ("total_occurrences", .int 0),
       ("avg_cluster_size", .int 0),
       ("avg_similarity", .int 0),
       ("total_loc_reduction", .int 0)]

end Statistics

end NearClone
