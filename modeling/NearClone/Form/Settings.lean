import NearClone.Form.Config
import NearClone.Text.Capital

/-!
Settings of the service, from named texts of its environment and from fields that take precedence.
-/

set_option autoImplicit false
set_option relaxedAutoImplicit false

namespace NearClone

open Form

/-- Settings of the service. -/
structure Settings (α : Type) where
  allowedOrigins : String
  debug : Bool
  logLevel : String
  preset : String
  minLines : Option Int
  threshold : Option α
  crossFile : Bool
  timeout : Option α
  maxConcurrent : Int
  deriving DecidableEq, Repr

namespace Settings

variable {α : Type}

/-- The settings where nothing is given. -/
def default : Settings α where
  allowedOrigins := "http://localhost:3000"
  debug := false
  logLevel := "INFO"
  preset := "default"
  minLines := none
  threshold := none
  crossFile := false
  timeout := none
  maxConcurrent := 4

variable [Numeral α]

/-- Settings from fields. -/
def ofFields (fields : Fields α) : Checked α (Settings α) :=
  let standard : Settings α := default
  Settings.mk
    <$> orElse fields "allowed_origins" standard.allowedOrigins text
    <*> orElse fields "debug" standard.debug flag
    <*> orElse fields "log_level" standard.logLevel text
    <*> orElse fields "dedup_preset" standard.preset text
    <*> orElse fields "dedup_min_lines" standard.minLines (nullable integer)
    <*> orElse fields "dedup_threshold" standard.threshold (nullable real)
    <*> orElse fields "dedup_cross_file" standard.crossFile flag
    <*> orElse fields "analysis_timeout_seconds" standard.timeout (nullable real)
    <*> orElse fields "max_concurrent_analyses" standard.maxConcurrent integer

/-- Settings from an environment and from fields that come before it. Names count in any case; of
several spellings of a name the last one counts in an environment, and the first one among
fields. -/
def ofSources (environment : List (String × String)) (fields : Fields α) : Checked α (Settings α) :=
  let named : Fields α := environment.map fun (name, value) ↦ (name.toLower, .text value)
  let given : Fields α := fields.reverse.map fun (name, value) ↦ (name.toLower, value)
  ofFields (Listing.assignAll (named ++ given))

/-- The settings as a document. -/
def document (s : Settings α) : Document α :=
  .object
    [("allowed_origins", .text s.allowedOrigins),
     ("debug", .flag s.debug),
     ("log_level", .text s.logLevel),
     ("dedup_preset", .text s.preset),
     ("dedup_min_lines", s.minLines.elim .null .int),
     ("dedup_threshold", s.threshold.elim .null .number),
     ("dedup_cross_file", .flag s.crossFile),
     ("analysis_timeout_seconds", s.timeout.elim .null .number),
     ("max_concurrent_analyses", .int s.maxConcurrent)]

/-- The allowed origins one by one, without the blanks around them. -/
def origins (s : Settings α) : List String :=
  (Text.pieces (· = ',') s.allowedOrigins.toList).map fun piece ↦
    String.ofList (Text.trimList Text.isBlank piece)

/-- What the settings put in place of the fields of their preset. -/
def overrides (s : Settings α) : Fields α :=
  [("min_lines", s.minLines.elim .null .int),
   ("threshold", s.threshold.elim .null .number),
   ("cross_file_comparison", .flag s.crossFile),
   ("max_workers", .int s.maxConcurrent),
   ("time_budget_seconds", s.timeout.elim .null .number)]

/-- The configuration that the settings ask for. -/
def config (s : Settings α) : Except (ConfigError α) (Config α) :=
  Config.ofPreset (some s.preset) s.overrides

/-- The names of the logging levels. -/
def logLevels : List String := ["CRITICAL", "ERROR", "WARNING", "INFO", "DEBUG"]

/-- Whether the logging level is known, in any case. -/
def knowsLevel (s : Settings α) : Bool :=
  logLevels.contains (Text.inCapitals s.logLevel)

/-- What is wrong with the settings, if anything is. -/
def problems (s : Settings α) : List String :=
  let level := if s.knowsLevel then [] else [s!"LOG_LEVEL '{s.logLevel}' is not a logging level"]
  let config :=
    match s.config with
    | .ok _ => []
    | .error e => [e.message]
  level ++ config

/-- The complaint about the settings; none if they are in order. -/
def complaint? (s : Settings α) : Option String :=
  if s.problems.isEmpty then none
  else some ("Configuration errors: " ++ String.intercalate ", " s.problems)

end Settings

end NearClone
