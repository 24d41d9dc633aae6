import NearClone.Proofs.Form.RoundTrip

/-!
# Options of settings and requests

Settings and requests give a configuration by options, some of which may be missing. Fields that
hold options are accepted if the options are within their bounds, and make the standard
configuration with the options put over it (`Options.ofFields_eq_ok_iff`). Settings start from the
options of their preset (`Settings.config_eq_ok_iff`). A request that asks for nothing has the
configuration of the settings, and any other one starts from its own preset: of the settings it
takes only what limits the work (`Request.config_eq_ok_iff`). So where it asks for something, a
number of lines, a threshold and a reach across files that it leaves out are those of the settings
only if these have the standard ones (`Request.config_fallsBackTo_iff`).
-/

set_option autoImplicit false
set_option relaxedAutoImplicit false

namespace NearClone

open Form Checked

/-- Options of a configuration, some of which may be missing. -/
structure Options (α : Type) where
  minLines : Option ℤ
  threshold : Option α
  crossFile : Option Bool
  scope : Option Scope
  maxWorkers : ℤ
  timeBudget : Option α

variable {α : Type}

/-! ### What is put over a configuration -/

/-- A configuration with options put over it. -/
def Options.applyTo (o : Options α) (c : Config α) : Config α :=
  { c with
    minLines := o.minLines.getD c.minLines
    threshold := o.threshold.getD c.threshold
    crossFile := o.crossFile.getD c.crossFile
    scope := o.scope.getD c.scope
    maxWorkers := o.maxWorkers
    timeBudget := o.timeBudget }

/-- A configuration with the options of a request put over it. -/
def Request.applyTo (r : Request α) (c : Config α) : Config α :=
  { c with
    minLines := r.minLines.getD c.minLines
    threshold := r.threshold.getD c.threshold
    crossFile := r.crossFile.getD c.crossFile
    scope := r.scope.getD c.scope }

/-- A request that asks for nothing gives none of the options. -/
theorem Request.asksForNothing_iff {r : Request α} : r.asksForNothing = true ↔
    r.preset = none ∧ r.minLines = none ∧ r.threshold = none ∧ r.crossFile = none ∧
      r.scope = none := by
  simp only [asksForNothing, Bool.and_eq_true, Option.isNone_iff_eq_none, and_assoc]

/-- A request that asks for nothing leaves every configuration as it is. -/
theorem Request.applyTo_of_asksForNothing {r : Request α} (h : r.asksForNothing = true)
    (c : Config α) : r.applyTo c = c := by
  obtain ⟨-, hminLines, hthreshold, hcrossFile, hscope⟩ := asksForNothing_iff.mp h
  rw [applyTo, hminLines, hthreshold, hcrossFile, hscope]
  rfl

/-- Whether a missing option matters. -/
theorem Options.getD_eq_getD_iff {β : Type} {given : Option β} {value other : β} :
    given.getD value = given.getD other ↔ (given = none → other = value) := by
  cases given <;> simp [eq_comm]

/-! ### Options in fields -/

namespace Options

variable [Numeral α] {o : Options α} {fields : Fields α} {c : Config α}

/-- The options, and those of a preset where they are missing. -/
def after (o : Options α) (p : Preset) : Options α :=
  { o with
    minLines := o.minLines.or p.minLines
    threshold := o.threshold.or p.threshold }

/-- The standard preset gives no options. -/
theorem after_standard (o : Options α) : o.after .standard = o := by
  simp only [after, Preset.minLines, Preset.threshold, Option.or_none]

/-- The options are within the bounds of their fields. -/
structure Admissible (o : Options α) : Prop where
  minLines : ∀ n ∈ o.minLines, 1 ≤ n
  threshold : ∀ x ∈ o.threshold, IsShare x
  maxWorkers : 1 ≤ o.maxWorkers
  timeBudget : ∀ seconds ∈ o.timeBudget, Scalar.ofInt 0 < seconds

/-- Fields hold the options, and no other field of a configuration. -/
structure WrittenIn (o : Options α) (fields : Fields α) : Prop where
  minLines : fields.lookup "min_lines" = o.minLines.map .int
  threshold : fields.lookup "threshold" = o.threshold.map .number
  weights : fields.lookup "weights" = none
  crossFile : fields.lookup "cross_file_comparison" = o.crossFile.map .flag
  scope : fields.lookup "comparison_scope" = o.scope.map fun scope ↦ .text scope.name
  highConfidence : fields.lookup "high_confidence" = none
  mediumConfidence : fields.lookup "medium_confidence" = none
  callOverhead : fields.lookup "call_site_overhead" = none
  maxWorkers : fields.lookup "max_workers" = some (.int o.maxWorkers)
  timeBudget : fields.lookup "time_budget_seconds" = o.timeBudget.map .number

/-- A time budget that may be missing is read from its field. -/
theorem WrittenIn.timeBudget_eq_ok_iff (h : o.WrittenIn fields) {result : Option α} :
    orElse fields "time_budget_seconds" none (nullable positive) = .ok result ↔
      (∀ seconds ∈ o.timeBudget, Scalar.ofInt 0 < seconds) ∧ o.timeBudget = result := by
  have hfield := h.timeBudget
  cases hbudget : o.timeBudget with
  | none =>
    rw [hbudget] at hfield
    rw [orElse_eq_ok_iff_of_lookup_eq_none hfield]
    simp
  | some seconds =>
    rw [hbudget] at hfield
    exact takesBack_nullable_positive.orElse_written hfield

/-- Fields that hold options are accepted if these are within their bounds, and make the standard
configuration with the options put over it. -/
theorem ofFields_eq_ok_iff (h : o.WrittenIn fields) :
    Config.ofFields fields = .ok c ↔ o.Admissible ∧
      (Config.default : Config α).mediumConfidence ≤ (Config.default : Config α).highConfidence ∧
      c = o.applyTo Config.default := by
  rw [Config.ofFields_eq_ok_iff]
  constructor
  · obtain ⟨minLines, threshold, weights, crossFile, scope, high, medium, callOverhead, maxWorkers,
      timeBudget⟩ := c
    intro hc
    obtain ⟨hminLines, rfl⟩ :=
      ((takesBack_integerFrom 1).orElse_eq_ok_iff h.minLines).mp hc.minLines
    obtain ⟨hthreshold, rfl⟩ := (takesBack_share.orElse_eq_ok_iff h.threshold).mp hc.threshold
    obtain rfl := (orElse_eq_ok_iff_of_lookup_eq_none h.weights).mp hc.weights
    obtain ⟨-, rfl⟩ := (takesBack_flag.orElse_eq_ok_iff h.crossFile).mp hc.crossFile
    obtain ⟨-, rfl⟩ := (takesBack_scope.orElse_eq_ok_iff h.scope).mp hc.scope
    obtain rfl := (orElse_eq_ok_iff_of_lookup_eq_none h.highConfidence).mp hc.highConfidence
    obtain rfl := (orElse_eq_ok_iff_of_lookup_eq_none h.mediumConfidence).mp hc.mediumConfidence
    obtain rfl := (orElse_eq_ok_iff_of_lookup_eq_none h.callOverhead).mp hc.callOverhead
    obtain ⟨hmaxWorkers, rfl⟩ :=
      ((takesBack_integerFrom 1).orElse_written h.maxWorkers).mp hc.maxWorkers
    obtain ⟨hseconds, rfl⟩ := h.timeBudget_eq_ok_iff.mp hc.timeBudget
    exact ⟨⟨hminLines, hthreshold, hmaxWorkers, hseconds⟩, hc.mediumConfidence_le, rfl⟩
  · rintro ⟨ho, hle, rfl⟩
    exact
      { minLines :=
          ((takesBack_integerFrom 1).orElse_eq_ok_iff h.minLines).mpr ⟨ho.minLines, rfl⟩
        threshold := (takesBack_share.orElse_eq_ok_iff h.threshold).mpr ⟨ho.threshold, rfl⟩
        weights := (orElse_eq_ok_iff_of_lookup_eq_none h.weights).mpr rfl
        crossFile :=
          (takesBack_flag.orElse_eq_ok_iff h.crossFile).mpr ⟨fun _ _ ↦ trivial, rfl⟩
        scope := (takesBack_scope.orElse_eq_ok_iff h.scope).mpr ⟨fun _ _ ↦ trivial, rfl⟩
        highConfidence := (orElse_eq_ok_iff_of_lookup_eq_none h.highConfidence).mpr rfl
        mediumConfidence := (orElse_eq_ok_iff_of_lookup_eq_none h.mediumConfidence).mpr rfl
        callOverhead := (orElse_eq_ok_iff_of_lookup_eq_none h.callOverhead).mpr rfl
        maxWorkers :=
          ((takesBack_integerFrom 1).orElse_written h.maxWorkers).mpr ⟨ho.maxWorkers, rfl⟩
        timeBudget := h.timeBudget_eq_ok_iff.mpr ⟨ho.timeBudget, rfl⟩
        mediumConfidence_le := hle }

end Options

/-! ### Settings -/

variable [Numeral α]

namespace Settings

variable {s : Settings α} {c : Config α}

/-- The options of settings. -/
def options (s : Settings α) : Options α where
  minLines := s.minLines
  threshold := s.threshold
  crossFile := some s.crossFile
  scope := none
  maxWorkers := s.maxConcurrent
  timeBudget := s.timeout

/-- The fields of a preset and settings hold the options of both. -/
theorem writtenIn_merged (s : Settings α) (p : Preset) :
    (s.options.after p).WrittenIn (p.merged s.overrides) := by
  have hnames : (s.overrides.map Prod.fst).Nodup := by simp [overrides]
  -- A missing option is written as null, which leaves the field of the preset as it is.
  obtain ⟨_, _, _, _, minLines, threshold, _, timeout, _⟩ := s
  constructor <;> rw [p.lookup_merged hnames]
  case minLines => cases minLines <;> cases p <;> rfl
  case threshold => cases threshold <;> cases p <;> rfl
  case timeBudget => cases timeout <;> cases p <;> rfl
  all_goals cases p <;> rfl

/-- Settings have a configuration if their preset is known and the options are within their bounds.
It is the standard one with the options put over it. -/
theorem config_eq_ok_iff : s.config = .ok c ↔
    ∃ p, Preset.ofName? s.preset = some p ∧ (s.options.after p).Admissible ∧
      (Config.default : Config α).mediumConfidence ≤ (Config.default : Config α).highConfidence ∧
      c = (s.options.after p).applyTo Config.default := by
  rw [config, Config.ofPreset_eq_ok_iff]
  refine exists_congr fun p ↦ and_congr_right fun _ ↦ ?_
  exact Options.ofFields_eq_ok_iff (s.writtenIn_merged p)

end Settings

/-! ### Requests -/

namespace Request

variable {r : Request α} {s : Settings α} {base c : Config α}

/-- The options of a request. What limits the work is given by the settings. -/
def options (r : Request α) (s : Settings α) : Options α where
  minLines := r.minLines
  threshold := r.threshold
  crossFile := r.crossFile
  scope := r.scope
  maxWorkers := s.maxConcurrent
  timeBudget := s.timeout

/-- The fields of a preset and a request hold the options of both. -/
theorem writtenIn_merged (r : Request α) (s : Settings α) (p : Preset) :
    ((r.options s).after p).WrittenIn (p.merged (r.overrides s)) := by
  have hnames : ((r.overrides s).map Prod.fst).Nodup := by simp [overrides]
  obtain ⟨_, _, minLines, threshold, crossFile, scope⟩ := r
  obtain ⟨_, _, _, _, _, _, _, timeout, _⟩ := s
  constructor <;> rw [p.lookup_merged hnames]
  case minLines => cases minLines <;> cases p <;> rfl
  case threshold => cases threshold <;> cases p <;> rfl
  case crossFile => cases crossFile <;> cases p <;> rfl
  case scope => cases scope <;> cases p <;> rfl
  case timeBudget => cases timeout <;> cases p <;> rfl
  all_goals cases p <;> rfl

/-- A request that asks for something has a configuration if its preset is known and the options are
within their bounds. It is the standard one with the options put over it, and the settings only
limit the work. -/
theorem config_eq_ok_iff (h : r.asksForNothing = false) : r.config s = .ok c ↔
    ∃ p, Preset.ofName? (r.preset.getD "") = some p ∧ ((r.options s).after p).Admissible ∧
      (Config.default : Config α).mediumConfidence ≤ (Config.default : Config α).highConfidence ∧
      c = ((r.options s).after p).applyTo Config.default := by
  have hconfig : r.config s = Config.ofPreset r.preset (r.overrides s) :=
    if_neg (ne_true_of_eq_false h)
  rw [hconfig, Config.ofPreset_eq_ok_iff]
  refine exists_congr fun p ↦ and_congr_right fun _ ↦ ?_
  exact Options.ofFields_eq_ok_iff (r.writtenIn_merged s p)

/-- What stands of the configuration of the settings under a request without a preset: all of it
where the request asks for nothing, and otherwise all but the number of lines, the threshold and the
reach across files, which are the standard ones. -/
def standing (r : Request α) (base : Config α) : Config α :=
  if r.asksForNothing then base
  else
    { base with
      minLines := (Config.default : Config α).minLines
      threshold := (Config.default : Config α).threshold
      crossFile := (Config.default : Config α).crossFile }

/-- A configuration has what a request asks for, and in all else agrees with that of the
settings. -/
structure FallsBackTo (r : Request α) (base c : Config α) : Prop where
  minLines : c.minLines = r.minLines.getD base.minLines
  threshold : c.threshold = r.threshold.getD base.threshold
  crossFile : c.crossFile = r.crossFile.getD base.crossFile
  scope : c.scope = r.scope.getD base.scope
  maxWorkers : c.maxWorkers = base.maxWorkers
  timeBudget : c.timeBudget = base.timeBudget

/-- The options of a request without a preset are put over what stands of the configuration of the
settings. -/
theorem config_eq_ok_iff_of_preset_eq_none (hpreset : r.preset = none)
    (hbase : s.config = .ok base) : r.config s = .ok c ↔
      (∀ n ∈ r.minLines, 1 ≤ n) ∧ (∀ x ∈ r.threshold, IsShare x) ∧
        c = r.applyTo (r.standing base) := by
  cases hnothing : r.asksForNothing with
  | true =>
    have hstanding : r.standing base = base := if_pos hnothing
    obtain ⟨-, hminLines, hthreshold, -, -⟩ := asksForNothing_iff.mp hnothing
    rw [config, if_pos hnothing, hbase, hstanding, applyTo_of_asksForNothing hnothing, hminLines,
      hthreshold]
    simp [eq_comm]
  | false =>
    obtain ⟨p, -, hsettings, hle, rfl⟩ := Settings.config_eq_ok_iff.mp hbase
    -- Without a preset the request starts from the standard one, which gives no options.
    have hname : Preset.ofName? (r.preset.getD "") = some .standard := by
      rw [hpreset]
      rfl
    have happly : (r.options s).applyTo Config.default =
        r.applyTo (r.standing ((s.options.after p).applyTo Config.default)) := by
      rw [standing, hnothing]
      rfl
    have hadmissible : (r.options s).Admissible ↔
        (∀ n ∈ r.minLines, 1 ≤ n) ∧ ∀ x ∈ r.threshold, IsShare x := by
      constructor
      · intro h
        exact ⟨h.minLines, h.threshold⟩
      · rintro ⟨hminLines, hthreshold⟩
        exact ⟨hminLines, hthreshold, hsettings.maxWorkers, hsettings.timeBudget⟩
    rw [config_eq_ok_iff hnothing, hname, ← happly, ← and_assoc, ← hadmissible]
    simp only [Option.some.injEq, exists_eq_left', Options.after_standard, hle, true_and]

/-- A request names no preset, and the service has a configuration by its settings. The request has
one too exactly if the options that it gives are within their bounds, and it is what stands of that
of the settings with these options put over it. So the scope, the number of workers, the time budget
and whatever the request gives are always as they should be. The number of lines, the threshold and
the reach across files that it leaves out are those of the settings exactly if the request asks for
nothing at all, or the settings have the standard ones for all of these that it leaves out.

Assumes: the request names no preset, and the configuration of the settings is accepted. -/
theorem config_fallsBackTo_iff (hpreset : r.preset = none) (hbase : s.config = .ok base) :
    (∀ c, r.config s = .ok c ↔ (∀ n ∈ r.minLines, 1 ≤ n) ∧ (∀ x ∈ r.threshold, IsShare x) ∧
      c = r.applyTo (r.standing base)) ∧
    ∀ c, r.config s = .ok c → (r.FallsBackTo base c ↔ r.asksForNothing = true ∨
      (r.minLines = none → base.minLines = (Config.default : Config α).minLines) ∧
      (r.threshold = none → base.threshold = (Config.default : Config α).threshold) ∧
      (r.crossFile = none → base.crossFile = (Config.default : Config α).crossFile)) := by
  refine ⟨fun c ↦ config_eq_ok_iff_of_preset_eq_none hpreset hbase, fun c hc ↦ ?_⟩
  obtain ⟨-, -, rfl⟩ := (config_eq_ok_iff_of_preset_eq_none hpreset hbase).mp hc
  cases hnothing : r.asksForNothing with
  | true =>
    have hstanding : r.standing base = base := if_pos hnothing
    rw [hstanding]
    exact iff_of_true ⟨rfl, rfl, rfl, rfl, rfl, rfl⟩ (Or.inl rfl)
  | false =>
    have hstanding : r.standing base =
        { base with
          minLines := (Config.default : Config α).minLines
          threshold := (Config.default : Config α).threshold
          crossFile := (Config.default : Config α).crossFile } :=
      if_neg (ne_true_of_eq_false hnothing)
    rw [hstanding, or_iff_right Bool.false_ne_true]
    constructor
    · intro h
      exact ⟨Options.getD_eq_getD_iff.mp h.minLines, Options.getD_eq_getD_iff.mp h.threshold,
        Options.getD_eq_getD_iff.mp h.crossFile⟩
    · rintro ⟨hminLines, hthreshold, hcrossFile⟩
      exact ⟨Options.getD_eq_getD_iff.mpr hminLines, Options.getD_eq_getD_iff.mpr hthreshold,
        Options.getD_eq_getD_iff.mpr hcrossFile, rfl, rfl, rfl⟩

/-- Under strict settings, a request gives a number of lines, a threshold and a reach across files.
The scope, the number of workers and the time budget are those of the settings. -/
theorem config_fallsBackTo_iff_strict :
    let settings : Settings ℚ :=
      { Settings.default with preset := "strict", timeout := some 30, maxConcurrent := 8 }
    let request : Request ℚ :=
      { files := [], preset := none, minLines := some 4, threshold := some 0.8
        crossFile := some true, scope := none }
    let base : Config ℚ :=
      { Config.default with
        minLines := 7, threshold := 0.9, maxWorkers := 8, timeBudget := some 30 }
    let c : Config ℚ := { base with minLines := 4, threshold := 0.8, crossFile := true }
    settings.config = .ok base ∧ request.config settings = .ok c ∧ request.FallsBackTo base c := by
  intro settings request base c
  have hbase : settings.config = .ok base := Survey.toOption_eq_some_iff.mp (by decide +kernel)
  obtain ⟨hconfig, hfallsBack⟩ := config_fallsBackTo_iff (r := request) rfl hbase
  have hrequest : request.config settings = .ok c :=
    (hconfig c).mpr ⟨by decide, by decide +kernel, by decide +kernel⟩
  refine ⟨hbase, hrequest, (hfallsBack c hrequest).mpr (Or.inr ⟨?_, ?_, ?_⟩)⟩
  all_goals exact fun hmissing ↦ absurd hmissing (Option.some_ne_none _)

/-- Under strict settings, a request only asks to compare across files. The number of lines and the
threshold become the standard ones. -/
theorem exists_not_fallsBackTo :
    let settings : Settings ℚ := { Settings.default with preset := "strict" }
    let request : Request ℚ :=
      { files := [], preset := none, minLines := none, threshold := none, crossFile := some true
        scope := none }
    ∃ base c, settings.config = .ok base ∧ request.config settings = .ok c ∧
      base.minLines = 7 ∧ c.minLines = 5 ∧ base.threshold = 0.9 ∧ c.threshold = 0.75 ∧
      ¬ request.FallsBackTo base c := by
  intro settings request
  let base : Config ℚ := { Config.default with minLines := 7, threshold := 0.9 }
  let c : Config ℚ := { Config.default with crossFile := true }
  refine ⟨base, c, Survey.toOption_eq_some_iff.mp (by decide +kernel),
    Survey.toOption_eq_some_iff.mp (by decide +kernel), rfl, rfl, rfl, rfl, fun h ↦ ?_⟩
  exact absurd h.minLines (by decide)

end Request

end NearClone
