import NearClone.Encoding.Fragment
import NearClone.Similarity

/-!
Similarities and clone pairs as documents.
-/

set_option autoImplicit false
set_option relaxedAutoImplicit false

namespace NearClone

variable {α : Type}

/-- A variation as a document. -/
def Variation.document (v : Variation) : Document α :=
  .object
    [("variation_type", .text v.kind.name),
     ("index1", .int v.leftIndex),
     ("index2", .int v.rightIndex),
     ("value1", .text v.left),
     ("value2", .text v.right),
     ("inferred_type", .ofText? v.inferred),
     ("slot", .int v.slot)]

/-- Differences as a document, with the number of variations of each kind. -/
def Differences.document (d : Differences) : Document α :=
  .object
    [("variations", .list (d.variations.map Variation.document)),
     ("has_structural_mismatch", .flag d.mismatch),
     ("literal_count", .nat (d.count .literal)),
     ("identifier_count", .nat (d.count .identifier)),
     ("type_count", .nat (d.count .type)),
     ("control_flow_count", .nat (d.count .controlFlow))]

/-- A typing as a document. -/
def Typing.document (t : Typing) : Document α :=
  .object
    [("all_variations_type_safe", .flag t.safe),
     ("parameter_types", .object (t.parameters.map fun (k, type) ↦ (toString k, .text type))),
     ("warnings", .texts t.warnings),
     ("incompatibilities", .texts t.conflicts)]

variable [Scalar α]

/-- A similarity as a document. -/
def Similarity.document (s : Similarity α) : Document α :=
  .object
    [("lcs_score", .number s.lcs),
     ("levenshtein_score", .number s.levenshtein),
     ("structural_score", .number s.structural),
     ("overall_score", .number s.overall),
     ("normalized_length1", .nat s.leftLength),
     ("normalized_length2", .nat s.rightLength),
     ("variations", s.differences.document),
     ("type_compatibility", s.typing.document),
     ("has_control_flow_differences", .flag s.diverts),
     ("can_refactor", .flag s.canRefactor)]

/-- A clone pair as a document. -/
def ClonePair.document (p : ClonePair α) : Document α :=
  .object
    [("seq1", p.left.document),
     ("seq2", p.right.document),
     ("similarity", p.similarity.document)]

end NearClone
