import NearClone.Form.Settings
import NearClone.Survey.Project

/-!
Requests for a survey: the candidate fragments of files, with options for the configuration.
-/

set_option autoImplicit false
set_option relaxedAutoImplicit false

namespace NearClone

open Form

/-- A request for a survey. -/
structure Request (α : Type) where
  /-- File names with the fragments of the file. -/
  files : List (String × List Fragment)
  preset : Option String
  minLines : Option Int
  threshold : Option α
  crossFile : Option Bool
  scope : Option Scope

namespace Request

variable {α : Type} [Numeral α]

/-- A slot of a statement. -/
def slot : Reading α Slot :=
  form .notForm fun fields ↦
    Slot.mk
      <$> required fields "kind" (choice (SlotKind.all.map SlotKind.name) SlotKind.ofName?)
      <*> required fields "text" text

/-- A statement. -/
def statement : Reading α Statement :=
  form .notForm fun fields ↦
    Statement.mk
      <$> required fields "shape" text
      <*> required fields "kind" text
      <*> orElse fields "text" "" text
      <*> orElse fields "tree_shape" none (nullable text)
      <*> orElse fields "slots" [] (list slot)

/-- A fragment of a file that is named elsewhere. -/
def fragment : Reading α (String → Fragment) :=
  form .notForm fun fields ↦
    (fun statements startLine endLine startColumn endColumn method owner hints file ↦
      { statements
        location := ⟨file, ⟨startLine, endLine, startColumn, endColumn⟩⟩
        method
        owner
        hints })
      <$> required fields "statements" (list statement)
      <*> required fields "start_line" integer
      <*> required fields "end_line" integer
      <*> orElse fields "start_column" 1 integer
      <*> orElse fields "end_column" 1 integer
      <*> orElse fields "containing_method" none (nullable text)
      <*> orElse fields "containing_class" none (nullable text)
      <*> orElse fields "type_hints" [] (mapping text)

/-- A file with its fragments. -/
def file : Reading α (String × List Fragment) :=
  form .notForm fun fields ↦
    (fun path (fragments : List (String → Fragment)) ↦ (path, fragments.map (· path)))
      <$> required fields "file_path" text
      <*> required fields "sequences" (list fragment)

/-- A request. -/
def reading : Reading α (Request α) :=
  form .notForm fun fields ↦
    Request.mk
      <$> required fields "files" (list file)
      <*> orElse fields "preset" none (nullable text)
      <*> orElse fields "min_lines" none (nullable integer)
      <*> orElse fields "threshold" none (nullable real)
      <*> orElse fields "cross_file_comparison" none (nullable flag)
      <*> orElse fields "comparison_scope" none (nullable Scope.reading)

/-- Whether the request leaves the configuration to the service. -/
def asksForNothing (r : Request α) : Bool :=
  r.preset.isNone && r.minLines.isNone && r.threshold.isNone && r.crossFile.isNone
    && r.scope.isNone

/-- What a request puts in place of the fields of its preset. What limits the work comes from the
settings. -/
def overrides (r : Request α) (settings : Settings α) : Fields α :=
  [("min_lines", r.minLines.elim .null .int),
   ("threshold", r.threshold.elim .null .number),
   ("cross_file_comparison", r.crossFile.elim .null .flag),
   ("comparison_scope", r.scope.elim .null fun s ↦ .text s.name),
   ("max_workers", .int settings.maxConcurrent),
   ("time_budget_seconds", settings.timeout.elim .null .number)]

/-- The configuration for a request: that of the settings where the request asks for nothing, and
otherwise that of a preset with the options of the request. -/
def config (settings : Settings α) (r : Request α) : Except (ConfigError α) (Config α) :=
  if r.asksForNothing then settings.config
  else Config.ofPreset r.preset (r.overrides settings)

/-- The files of a request as entries of a survey. -/
def entries (r : Request α) : List FileEntry :=
  r.files.map fun (path, fragments) ↦ (path, fragments.map some)

end Request

end NearClone
