import NearClone.Cluster.Basic
import NearClone.Identifier

/-!
Advice on clusters: how the clones could be consolidated, how sure that is, and what the extracted
method could be called.
-/

set_option autoImplicit false
set_option relaxedAutoImplicit false

namespace NearClone.Cluster

variable {α : Type} [Scalar α]

/-- Whether there is a pair and every pair can be merged. -/
def isSafe (c : Cluster α) : Bool :=
  !c.pairs.isEmpty && c.pairs.all fun p ↦ p.similarity.canRefactor

/-- The distinct classes or files of the members. -/
def homes (c : Cluster α) : List String := Listing.distinct (c.members.map (·.home))

/-- How the members could be consolidated. -/
def strategy (c : Cluster α) : Strategy :=
  if !c.isSafe then .manualReview
  else if c.homes.length = 1 then .extractMethod
  else .utilityClass

/-- Why a cluster needs a reader. -/
def doubts (c : Cluster α) : List String :=
  let flow :=
    if c.pairs.any fun p ↦ p.similarity.diverts then ["Control flow differs between duplicates"]
    else []
  let types :=
    if c.pairs.any fun p ↦ !p.similarity.typing.safe then
      ["Variations cannot be unified into typed parameters"]
    else []
  let found := flow ++ types
  if found.isEmpty then ["No duplicate pairs to judge"] else found

/-- The reasons for a strategy. -/
def strategyReasons (c : Cluster α) : List String :=
  match c.strategy with
  | .manualReview => c.doubts
  | .extractMethod => ["All duplicates are type-safe and share one class"]
  | .utilityClass => [s!"All duplicates are type-safe but span {c.homes.length} classes or files"]

/-- Whether some pair differs in a way that no parameter expresses. -/
def hasMismatch (c : Cluster α) : Bool := c.pairs.any fun p ↦ p.similarity.differences.mismatch

/-- The name of a method about which nothing is known but its number. -/
def genericName (ordinal : Int) : String := s!"extractedMethod{ordinal}"

/-- The method name whose words are looked for in the others: that of the primary member, or the
first one given if the primary has none. -/
def leadingName (c : Cluster α) (names : List String) : String :=
  match c.primary.method with
  | some name => if name.isEmpty then names.headD "" else name
  | none => names.headD ""

/-- The distinct words of the leading name that occur in every name, in their order. -/
def sharedWords (c : Cluster α) (names : List String) : List String :=
  let others := names.map Identifier.words
  Listing.distinct
    ((Identifier.words (c.leadingName names)).filter fun w ↦ others.all fun ws ↦ ws.contains w)

/-- A name for the extracted method: the words that the names of all methods around the members
share. Without such a word, or with a digit in front, it is a generic name. -/
def suggestName (c : Cluster α) (ordinal : Int) : String :=
  match c.members.mapM (·.method) with
  | none | some [] => genericName ordinal
  | some names =>
    match c.sharedWords names with
    | [] => genericName ordinal
    | word :: rest =>
      if Identifier.startsWithDigit word then genericName ordinal
      else Identifier.camelCase (word :: rest)

/-- The advice on a cluster with a given number. -/
def recommend (config : Config α) (c : Cluster α) (ordinal : Int) : Recommendation α :=
  let score := c.averageSimilarity
  let confidence : Confidence :=
    if config.highConfidence ≤ score then .high
    else if config.mediumConfidence ≤ score then .medium
    else .low
  let strategy := c.strategy
  { strategy
    confidence := if c.hasMismatch then confidence.lowered else confidence
    score
    methodName := if strategy = .manualReview then none else some (c.suggestName ordinal)
    reasons :=
      c.strategyReasons ++ if c.hasMismatch then ["Some statements could not be aligned"] else [] }

/-- Clusters with their advice, numbered from one. -/
def annotate (config : Config α) (clusters : List (Cluster α)) : List (Cluster α) :=
  clusters.zipIdx.map fun (c, k) ↦
    { c with recommendation := some (c.recommend config ((k : Int) + 1)) }

end NearClone.Cluster
