import NearClone.Alignment.Align
import NearClone.Alignment.Basic
import NearClone.Alignment.Gap
import NearClone.Alignment.Trail
import NearClone.Cluster.Advice
import NearClone.Cluster.Basic
import NearClone.Cluster.Grouping
import NearClone.Cluster.Recommendation
import NearClone.Cluster.Statistics
import NearClone.Config.Basic
import NearClone.Config.Scope
import NearClone.Config.Weights
import NearClone.Document.Basic
import NearClone.Document.Printer
import NearClone.Document.Reader
import NearClone.EditDistance
import NearClone.Encoding.Cluster
import NearClone.Encoding.Fragment
import NearClone.Encoding.Report
import NearClone.Encoding.Similarity
import NearClone.Filter
import NearClone.Forest
import NearClone.Form.Checked
import NearClone.Form.Config
import NearClone.Form.Fault
import NearClone.Form.Reading
import NearClone.Form.Request
import NearClone.Form.Settings
import NearClone.Identifier
import NearClone.Listing.Assigned
import NearClone.Listing.Distinct
import NearClone.Listing.Place
import NearClone.Listing.Shared
import NearClone.Listing.Sorted
import NearClone.Listing.Total
import NearClone.Literal
import NearClone.Number.Binary
import NearClone.Number.Fraction
import NearClone.Number.IntegerText
import NearClone.Number.Layout
import NearClone.Number.Numeral
import NearClone.Number.Quantity
import NearClone.Number.Rounding
import NearClone.Number.Scalar
import NearClone.Number.Shortest
import NearClone.Number.Word
import NearClone.Proofs.Alignment.Align
import NearClone.Proofs.Alignment.Trail
import NearClone.Proofs.EditDistance
import NearClone.Proofs.Filter.Bound
import NearClone.Proofs.Filter.Chain
import NearClone.Proofs.Listing.Shared
import NearClone.Proofs.Number.Exact
import NearClone.Proofs.Survey.Scan
import NearClone.Service
import NearClone.Service.Target
import NearClone.Similarity
import NearClone.Source.Fragment
import NearClone.Source.Range
import NearClone.Source.Statement
import NearClone.Survey.Clock
import NearClone.Survey.Project
import NearClone.Survey.Report
import NearClone.Survey.Scan
import NearClone.Text.Blank
import NearClone.Text.Capital
import NearClone.Text.Digit
import NearClone.Text.Encoding
import NearClone.Typing
import NearClone.Variation
import NearClone.Proofs.Survey.Sparing
import NearClone.Proofs.Alignment.Order
import NearClone.Proofs.Alignment.Symmetry
import NearClone.Proofs.Similarity.Symmetry
import NearClone.Proofs.Similarity.Renaming
import NearClone.Proofs.Forest.Root
import NearClone.Proofs.Forest.Compress
import NearClone.Proofs.Forest.Union
import NearClone.Proofs.Forest.Partition
import NearClone.Proofs.Listing.Sorted
import NearClone.Proofs.Listing.Grouped
import NearClone.Proofs.Forest.Edges
import NearClone.Proofs.Forest.Count
import NearClone.Proofs.Forest.Height
import NearClone.Proofs.Cluster.Tree
import NearClone.Proofs.Alignment.Cover
import NearClone.Proofs.Similarity.Substitution
import NearClone.Proofs.Cluster.Components
import NearClone.Proofs.Cluster.Advice
import NearClone.Proofs.Survey.Report
import NearClone.Proofs.Survey.Safety
import NearClone.Proofs.Survey.Uniform
import NearClone.Proofs.Source.Order
import NearClone.Proofs.Survey.Candidates
import NearClone.Proofs.Cluster.Containment
import NearClone.Proofs.Survey.Pairs
import NearClone.Proofs.Survey.Consistency
import NearClone.Proofs.Survey.Restriction
import NearClone.Proofs.Listing.Assigned
import NearClone.Proofs.Survey.Project
import NearClone.Proofs.Survey.Deadline
import NearClone.Proofs.Survey.Widening
import NearClone.Proofs.Survey.Isolation
import NearClone.Proofs.Cluster.Primary
import NearClone.Proofs.Cluster.Regrouping
import NearClone.Proofs.Cluster.Members
import NearClone.Proofs.Cluster.Naming
import NearClone.Proofs.Cluster.Statistics
import NearClone.Proofs.Cluster.Order
import NearClone.Proofs.Alignment.Optimal
import NearClone.Proofs.Form.Config
import NearClone.Proofs.Form.Reading
import NearClone.Proofs.Form.RoundTrip
import NearClone.Proofs.Form.Options
import NearClone.Proofs.Similarity.Scores
import NearClone.Proofs.Survey.Placement
import NearClone.Proofs.Service.Survey
import NearClone.Proofs.EditDistance.Script
import NearClone.Proofs.Alignment.Gap
import NearClone.Proofs.Similarity.Counts
import NearClone.Proofs.Similarity.Variations
import NearClone.Proofs.Similarity.Typing
import NearClone.Proofs.Similarity.Hints
import NearClone.Proofs.Survey.Hints
import NearClone.Proofs.Literal.Grammar
import NearClone.Proofs.Literal.Recognition
import NearClone.Proofs.Identifier
