import NearClone.Config.Basic
import NearClone.Form.Reading

/-!
Configurations from documents: the fields of a form, named presets with fields that override them,
and the document of a configuration.
-/

set_option autoImplicit false
set_option relaxedAutoImplicit false

namespace NearClone

open Form

variable {α : Type} [Numeral α]

/-- Fields of a form. -/
abbrev Fields (α : Type) := List (String × Document α)

namespace Weights

/-- Weights from fields; they must sum to one. -/
def ofFields (fields : Fields α) : Checked α (Weights α) :=
  let standard : Weights α := balanced
  let weights : Checked α (Weights α) :=
    Weights.mk
      <$> orElse fields "lcs" standard.lcs share
      <*> orElse fields "levenshtein" standard.levenshtein share
      <*> orElse fields "structural" standard.structural share
  weights.refine fun w ↦ if w.isNormalized then .ok w else .fault (.weightSum w.total)

/-- Weights as a document. -/
def document (w : Weights α) : Document α :=
  .object
    [("lcs", .number w.lcs),
     ("levenshtein", .number w.levenshtein),
     ("structural", .number w.structural)]

end Weights

namespace Scope

/-- A scope from its name. -/
def reading : Reading α Scope := choice (Scope.all.map Scope.name) Scope.ofName?

end Scope

namespace Config

/-- A configuration from fields; a field that is not given has its standard value. The medium degree
of confidence must not lie above the high one. -/
def ofFields (fields : Fields α) : Checked α (Config α) :=
  let standard : Config α := default
  let config : Checked α (Config α) :=
    Config.mk
      <$> orElse fields "min_lines" standard.minLines (integerFrom 1)
      <*> orElse fields "threshold" standard.threshold share
      <*> orElse fields "weights" standard.weights (form .notWeights Weights.ofFields)
      <*> orElse fields "cross_file_comparison" standard.crossFile flag
      <*> orElse fields "comparison_scope" standard.scope Scope.reading
      <*> orElse fields "high_confidence" standard.highConfidence share
      <*> orElse fields "medium_confidence" standard.mediumConfidence share
      <*> orElse fields "call_site_overhead" standard.callOverhead (integerFrom 0)
      <*> orElse fields "max_workers" standard.maxWorkers (integerFrom 1)
      <*> orElse fields "time_budget_seconds" standard.timeBudget (nullable positive)
  config.refine fun c ↦
    if c.mediumConfidence ≤ c.highConfidence then .ok c
    else .fault (.confidenceOrder c.mediumConfidence c.highConfidence)

/-- The fields of a configuration. -/
def fields (c : Config α) : Fields α :=
  [("min_lines", .int c.minLines),
   ("threshold", .number c.threshold),
   ("weights", c.weights.document),
   ("cross_file_comparison", .flag c.crossFile),
   ("comparison_scope", .text c.scope.name),
   ("high_confidence", .number c.highConfidence),
   ("medium_confidence", .number c.mediumConfidence),
   ("call_site_overhead", .int c.callOverhead),
   ("max_workers", .int c.maxWorkers),
   ("time_budget_seconds", c.timeBudget.elim .null .number)]

/-- A configuration as a document. -/
def document (c : Config α) : Document α := .object c.fields

end Config

/-- Named configurations. -/
inductive Preset where
  | standard
  | strict
  | lenient
  deriving DecidableEq, Repr

namespace Preset

/-- The name of a preset. -/
def name : Preset → String
  | standard => "default"
  | strict => "strict"
  | lenient => "lenient"

/-- All presets. -/
def all : List Preset := [standard, strict, lenient]

/-- The preset with a given name, in any case. The empty name is that of the standard one. -/
def ofName? (s : String) : Option Preset :=
  if s.isEmpty then some standard else all.find? fun p ↦ p.name = s.toLower

/-- The threshold of a preset, if it departs from the standard one. -/
def threshold : Preset → Option α
  | standard => none
  | strict => some 0.90
  | lenient => some 0.60

/-- The least number of lines of a preset, if it departs from the standard one. -/
def minLines : Preset → Option Int
  | standard => none
  | strict => some 7
  | lenient => some 3

/-- The fields in which a preset departs from the standard values. -/
def fields (p : Preset) : Fields α :=
  (p.threshold.map fun x ↦ ("threshold", .number x)).toList
    ++ (p.minLines.map fun n ↦ ("min_lines", .int n)).toList

end Preset

/-- Why a configuration cannot be made. -/
inductive ConfigError (α : Type) where
  /-- An override has a name that means something else. -/
  | reservedName (name : String)
  | unknownPreset (name : String)
  | invalid (faults : List (Fault α))

namespace ConfigError

/-- An error as text. -/
def message : ConfigError α → String
  | reservedName name =>
    s!"DuplicationConfig.from_preset() got multiple values for argument '{name}'"
  | unknownPreset name =>
    s!"Unknown preset '{name}', expected one of: default, strict, lenient"
  | invalid faults => Fault.summary faults

end ConfigError

namespace Config

/-- Whether a document is null. -/
def isNull : Document α → Bool
  | .null => true
  | _ => false

/-- The configuration of a preset with fields that override it. Null overrides nothing, and no name
is the name of the standard preset. -/
def ofPreset (preset : Option String) (overrides : Fields α) : Except (ConfigError α) (Config α) :=
  let name := preset.getD ""
  match Preset.ofName? name with
  | none => .error (.unknownPreset name)
  | some p =>
    let given := overrides.filter fun f ↦ !isNull f.2
    match ofFields (Listing.assignAll (p.fields ++ given)) with
    | .ok c => .ok c
    | .faulty faults => .error (.invalid faults)

/-- Names that no override may have: they stand for what is made, and for the preset. -/
def reservedNames : List String := ["cls", "preset"]

/-- The configuration of a preset with overrides under any names. The first name that is reserved
comes before all other errors. -/
def requested (preset : Option String) (overrides : Fields α) :
    Except (ConfigError α) (Config α) :=
  match overrides.find? fun f ↦ reservedNames.contains f.1 with
  | some (name, _) => .error (.reservedName name)
  | none => ofPreset preset overrides

end Config

end NearClone
