import NearClone.Encoding.Report
import NearClone.Form.Request
import NearClone.Proofs.Form.Reading
import NearClone.Proofs.Listing.Assigned
import NearClone.Proofs.Survey.Isolation

/-!
# Configurations that are read back

What is written of a configuration is taken back if the configuration is admissible, and nothing
else is (`Config.takesBack_ofFields`). A preset with fields that override it is read from one list
of fields, in which each name has the override, if there is one that is not null
(`Preset.lookup_merged`). So on every way in which a configuration can be made it is read from
fields (`Config.Made.exists_ofFields`), is admissible, and is read back from any report
(`Config.Made.admissible_and_readBack`).
-/

set_option autoImplicit false
set_option relaxedAutoImplicit false

namespace NearClone

open Form Checked

variable {α : Type} [Numeral α] {fields overrides : Fields α}

/-! ### Reading back what was written -/

/-- Of weights that were written, exactly the admissible ones are taken back. -/
theorem Weights.takesBack_ofFields :
    TakesBack (form .notWeights ofFields) document (Admissible (α := α)) := by
  rintro w ⟨lcs, levenshtein, structural⟩
  refine ofFields_eq_ok_iff.trans ⟨fun h ↦ ?_, ?_⟩
  · obtain ⟨hlcs, rfl⟩ := (takesBack_share.orElse_written rfl).mp h.lcs
    obtain ⟨hlevenshtein, rfl⟩ := (takesBack_share.orElse_written rfl).mp h.levenshtein
    obtain ⟨hstructural, rfl⟩ := (takesBack_share.orElse_written rfl).mp h.structural
    exact ⟨⟨hlcs, hlevenshtein, hstructural, h.isNormalized⟩, rfl⟩
  · rintro ⟨h, rfl⟩
    exact ⟨(takesBack_share.orElse_written rfl).mpr ⟨h.lcs, rfl⟩,
      (takesBack_share.orElse_written rfl).mpr ⟨h.levenshtein, rfl⟩,
      (takesBack_share.orElse_written rfl).mpr ⟨h.structural, rfl⟩, h.isNormalized⟩

/-- Of a configuration that was written, it is read again if it is admissible, and nothing is read
otherwise. -/
theorem Config.takesBack_ofFields :
    TakesBack (form .notForm ofFields) document (Admissible (α := α)) := by
  rintro c ⟨minLines, threshold, weights, crossFile, scope, high, medium, callOverhead, maxWorkers,
    timeBudget⟩
  refine ofFields_eq_ok_iff.trans ⟨fun h ↦ ?_, ?_⟩
  -- Every value that is read is the one that was written, so in the end both sides are the same.
  · obtain ⟨hminLines, rfl⟩ := ((takesBack_integerFrom 1).orElse_written rfl).mp h.minLines
    obtain ⟨hthreshold, rfl⟩ := (takesBack_share.orElse_written rfl).mp h.threshold
    obtain ⟨hweights, rfl⟩ := (Weights.takesBack_ofFields.orElse_written rfl).mp h.weights
    obtain ⟨-, rfl⟩ := (takesBack_flag.orElse_written rfl).mp h.crossFile
    obtain ⟨-, rfl⟩ := (takesBack_scope.orElse_written rfl).mp h.scope
    obtain ⟨hhigh, rfl⟩ := (takesBack_share.orElse_written rfl).mp h.highConfidence
    obtain ⟨hmedium, rfl⟩ := (takesBack_share.orElse_written rfl).mp h.mediumConfidence
    obtain ⟨hcallOverhead, rfl⟩ :=
      ((takesBack_integerFrom 0).orElse_written rfl).mp h.callOverhead
    obtain ⟨hmaxWorkers, rfl⟩ := ((takesBack_integerFrom 1).orElse_written rfl).mp h.maxWorkers
    obtain ⟨hseconds, rfl⟩ := (takesBack_nullable_positive.orElse_written rfl).mp h.timeBudget
    exact ⟨⟨hminLines, hthreshold, hweights, hhigh, hmedium, h.mediumConfidence_le, hcallOverhead,
      hmaxWorkers, hseconds⟩, rfl⟩
  · rintro ⟨h, rfl⟩
    exact
      { minLines := ((takesBack_integerFrom 1).orElse_written rfl).mpr ⟨h.minLines, rfl⟩
        threshold := (takesBack_share.orElse_written rfl).mpr ⟨h.threshold, rfl⟩
        weights := (Weights.takesBack_ofFields.orElse_written rfl).mpr ⟨h.weights, rfl⟩
        crossFile := (takesBack_flag.orElse_written rfl).mpr ⟨trivial, rfl⟩
        scope := (takesBack_scope.orElse_written rfl).mpr ⟨trivial, rfl⟩
        highConfidence := (takesBack_share.orElse_written rfl).mpr ⟨h.highConfidence, rfl⟩
        mediumConfidence := (takesBack_share.orElse_written rfl).mpr ⟨h.mediumConfidence, rfl⟩
        callOverhead := ((takesBack_integerFrom 0).orElse_written rfl).mpr ⟨h.callOverhead, rfl⟩
        maxWorkers := ((takesBack_integerFrom 1).orElse_written rfl).mpr ⟨h.maxWorkers, rfl⟩
        timeBudget := (takesBack_nullable_positive.orElse_written rfl).mpr ⟨h.timeBudget, rfl⟩
        mediumConfidence_le := h.mediumConfidence_le }

/-! ### Presets -/

namespace Preset

/-- The fields of a preset, and those that are given in place of them. -/
def merged (p : Preset) (overrides : Fields α) : Fields α :=
  Listing.assignAll (p.fields ++ overrides.filter fun f ↦ !Config.isNull f.2)

/-- A preset gives every field once. -/
theorem nodup_names_fields (p : Preset) : ((p.fields : Fields α).map Prod.fst).Nodup := by
  cases p <;> simp [fields, threshold, minLines]

/-- An override counts, unless it is null, and otherwise the field of the preset. -/
theorem lookup_merged (p : Preset) (h : (overrides.map Prod.fst).Nodup) (name : String) :
    (p.merged overrides).lookup name =
      ((overrides.lookup name).filter fun d ↦ !Config.isNull d).or (p.fields.lookup name) := by
  have hgiven : ((overrides.filter fun f ↦ !Config.isNull f.2).map Prod.fst).Nodup :=
    h.sublist (List.filter_sublist.map Prod.fst)
  rw [merged, Listing.lookup_assignAll_append p.nodup_names_fields hgiven,
    Listing.lookup_filter h fun d ↦ !Config.isNull d]

end Preset

namespace Config

variable {preset : Option String} {c : Config α}

/-- A preset with overrides is a configuration if there is a preset of the name and its fields with
the overrides are let through. -/
theorem ofPreset_eq_ok_iff : ofPreset preset overrides = .ok c ↔
    ∃ p, Preset.ofName? (preset.getD "") = some p ∧ ofFields (p.merged overrides) = .ok c := by
  cases hname : Preset.ofName? (preset.getD "") with
  | none => simp [ofPreset, hname]
  | some p =>
    simp only [ofPreset, hname, Option.some.injEq, exists_eq_left', Preset.merged]
    split <;> next heq => simp [heq]

/-- Where no name is reserved, what is requested is the preset with the overrides. -/
theorem ofPreset_of_requested (h : requested preset overrides = .ok c) :
    ofPreset preset overrides = .ok c := by
  unfold requested at h
  split at h
  · exact nomatch h
  · exact h

/-! ### Every way in which a configuration is made -/

/-- A configuration is made from fields, from a preset with overrides, by the settings of the
service, or for a request to it. -/
inductive Made : Config α → Prop where
  | fromFields {fields : Fields α} {c : Config α} (h : ofFields fields = .ok c) : Made c
  | fromPreset {preset : Option String} {overrides : Fields α} {c : Config α}
      (h : requested preset overrides = .ok c) : Made c
  | bySettings {settings : Settings α} {c : Config α} (h : settings.config = .ok c) : Made c
  | forRequest {settings : Settings α} {request : Request α} {c : Config α}
      (h : request.config settings = .ok c) : Made c

/-- On every way a configuration is read from fields in the end. -/
theorem Made.exists_ofFields (h : c.Made) : ∃ fields, ofFields fields = .ok c := by
  have hpreset {preset : Option String} {overrides : Fields α} {c : Config α}
      (h : ofPreset preset overrides = .ok c) : ∃ fields, ofFields fields = .ok c := by
    obtain ⟨p, -, hp⟩ := ofPreset_eq_ok_iff.mp h
    exact ⟨_, hp⟩
  cases h with
  | fromFields h => exact ⟨_, h⟩
  | fromPreset h => exact hpreset (ofPreset_of_requested h)
  | bySettings h => exact hpreset h
  | forRequest h =>
    unfold Request.config at h
    split at h
    · exact hpreset h
    · exact hpreset h

end Config

/-- What is read from the block of a report that shows the configuration. -/
def Report.readConfig (r : Report α) : Option (Checked α (Config α)) :=
  (r.document.get? "config").map (form .notForm Config.ofFields)

/-- A report shows its configuration as it is written. -/
theorem Report.readConfig_eq (r : Report α) :
    r.readConfig = some (form .notForm Config.ofFields r.config.document) := rfl

/-- A configuration that was made in any way is within its bounds, and what is written of it is read
back as it is. So is the block of every report that shows the configuration: of the report on a
file, and of all reports on a project, whatever the clock says and whether or not comparisons fail.

Assumes: the numbers among the standard values are within their bounds, as exact numbers are
(`Numeral.holdsStandards_rat`). -/
theorem Config.Made.admissible_and_readBack (hstandards : Numeral.HoldsStandards α)
    {c : Config α} (h : c.Made) :
    c.Admissible ∧ form .notForm ofFields c.document = .ok c ∧
      ∀ s : Survey α, s.config = c → ∀ clock : Clock α,
        (∀ deadline source given report, s.file clock deadline source given = .ok report →
          report.readConfig = some (.ok c)) ∧
        ∀ files, (∀ report ∈ (s.project clock files).reports, report.readConfig = some (.ok c)) ∧
          ∀ report ∈ (s.project clock files).whole, report.readConfig = some (.ok c) := by
  obtain ⟨fields, hfields⟩ := h.exists_ofFields
  have hadmissible : c.Admissible := ensures_ofFields hstandards fields c hfields
  have hback : form .notForm ofFields c.document = .ok c :=
    takesBack_ofFields.eq_ok hadmissible
  have hreport {report : Report α} (hconfig : report.config = c) :
      report.readConfig = some (.ok c) := by
    rw [report.readConfig_eq, hconfig, hback]
  refine ⟨hadmissible, hback, ?_⟩
  rintro s rfl clock
  refine ⟨fun deadline source given report hfile ↦ hreport (Survey.config_of_file hfile),
    fun files ↦ ?_⟩
  obtain ⟨hreports, hwhole⟩ := Survey.config_of_project s clock files
  exact ⟨fun report hmem ↦ hreport (hreports report hmem),
    fun report hmem ↦ hreport (hwhole report hmem)⟩

/-- A preset in capitals, with a threshold and a time budget as texts and weights in part, and with
an override that is null. -/
theorem Config.Made.admissible_and_readBack_strict :
    let overrides : Fields ℚ :=
      [("threshold", .text "0.8"), ("min_lines", .null), ("time_budget_seconds", .text "30"),
       ("weights", .object [("structural", .int 0), ("lcs", .number (2 / 3))])]
    let c : Config ℚ :=
      { default with
        minLines := 7
        threshold := 4 / 5
        weights := ⟨2 / 3, 1 / 3, 0⟩
        timeBudget := some 30 }
    requested (some "STRICT") overrides = .ok c ∧ c.Admissible ∧
      form .notForm ofFields c.document = .ok c := by
  intro overrides c
  have hrequested : requested (some "STRICT") overrides = .ok c :=
    Survey.toOption_eq_some_iff.mp (by decide +kernel)
  obtain ⟨hadmissible, hback, -⟩ :=
    admissible_and_readBack Numeral.holdsStandards_rat (.fromPreset hrequested)
  exact ⟨hrequested, hadmissible, hback⟩

end NearClone
