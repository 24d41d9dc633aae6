import NearClone.Proofs.Form.Config
import NearClone.Proofs.Survey.Isolation
import NearClone.Service

/-!
# Files that a request names more than once

A request lists files with their fragments, and a file may be listed more than once. Each file that
is named is surveyed once, and of its entries the last one counts
(`Request.mem_entriesOf_entries`): there is one report under its name, on the fragments of that
entry (`Service.exists_report_surveyed`). So nothing is lost where every file is named once
(`Request.surveyed_eq_submitted`), or where the last entry for a file has the same candidates as all
its entries (`Service.losesNothing_of_candidates_eq`). Where fragments at one location are the same,
nothing is lost in no other case (`Service.losesNothing_iff`).
-/

set_option autoImplicit false
set_option relaxedAutoImplicit false

namespace NearClone

open Survey

variable {α : Type}

namespace Request

variable {request : Request α} {path : String}

/-! ### Entries of one file -/

/-- All fragments that a request has for a file, those of one entry after those of the other. -/
def submitted (request : Request α) (path : String) : List (Option Fragment) :=
  (request.entries.filter fun e ↦ e.1 = path).flatMap Prod.snd

/-- The fragments in the last entry that a request has for a file. -/
def surveyed (request : Request α) (path : String) : List (Option Fragment) :=
  (request.entries.filter fun e ↦ e.1 = path).getLast?.elim [] Prod.snd

/-- The names of the entries are those of the files. -/
theorem names_entries (request : Request α) :
    request.entries.map Prod.fst = request.files.map Prod.fst := by
  rw [entries, List.map_map]
  rfl

/-- The last entry is one of all entries. -/
theorem surveyed_subset_submitted (request : Request α) (path : String) :
    request.surveyed path ⊆ request.submitted path := by
  intro f hf
  rw [surveyed] at hf
  cases hlast : (request.entries.filter fun e ↦ e.1 = path).getLast? with
  | none =>
    rw [hlast] at hf
    exact absurd hf List.not_mem_nil
  | some entry =>
    rw [hlast] at hf
    exact List.mem_flatMap.mpr ⟨entry, List.mem_of_getLast? hlast, hf⟩

/-- The entry that is surveyed for a file is the last one. -/
theorem mem_entriesOf_entries (hpath : path ∈ request.files.map Prod.fst) :
    (path, request.surveyed path) ∈ entriesOf request.entries := by
  rw [← names_entries, ← mem_names_entriesOf] at hpath
  obtain ⟨entry, hentry, rfl⟩ := List.mem_map.mp hpath
  have hlast := Listing.mem_assignAll_iff.mp (Listing.mem_sortBy.mp hentry)
  rw [surveyed, hlast]
  exact hentry

/-- Where every file is named once, all its fragments are in the last entry. -/
theorem surveyed_eq_submitted (hnames : (request.files.map Prod.fst).Nodup)
    (hpath : path ∈ request.files.map Prod.fst) :
    request.surveyed path = request.submitted path := by
  rw [← names_entries] at hnames hpath
  obtain ⟨entry, hentry, rfl⟩ := List.mem_map.mp hpath
  have hone : request.entries.filter (fun e ↦ e.1 = entry.1) = [entry] := by
    have hitems : ∀ q ∈ request.entries, ∀ e ∈ [q], e.1 = q.1 := fun q _ e he ↦
      congrArg Prod.fst (List.mem_singleton.mp he)
    have hown := Listing.filter_flatMap_of_mem hnames hitems hentry
    rwa [List.flatMap_singleton'] at hown
  rw [surveyed, submitted, hone]
  exact (List.append_nil _).symm

/-- The last entry for a file has as many candidates as the usable fragments submitted for the file
have locations exactly if it has a usable one at each of these. -/
theorem length_candidates_surveyed_iff (request : Request α) (config : Config α) (path : String) :
    (candidates config (request.surveyed path)).length =
        (Listing.distinct ((usable config (request.submitted path)).map (·.location))).length ↔
      ∀ f ∈ usable config (request.submitted path),
        ∃ g ∈ usable config (request.surveyed path), g.location = f.location := by
  rw [← length_candidates]
  exact length_candidates_eq_iff (usable_subset (request.surveyed_subset_submitted path))

end Request

namespace Service

variable [Numeral α] {config : Config α} {clock : Clock α} {request : Request α} {path : String}

/-! ### Reports on the files of a request -/

/-- The survey of a request loses nothing: there is one report under the name of every file, it is
the report on all the fragments submitted for the file, and it counts the usable ones, those at one
location once. -/
def LosesNothing (config : Config α) (clock : Clock α) (request : Request α) : Prop :=
  ∀ path ∈ request.files.map Prod.fst, ∃ report,
    ((ofConfig config).project clock request.entries).reports.filter
        (fun r ↦ r.source = path) = [report] ∧
      (ofConfig config).file clock none path (request.submitted path) = .ok report ∧
      report.candidates =
        (Listing.distinct ((usable config (request.submitted path)).map (·.location))).length

/-- The only report under the name of a file is that on the fragments in the last entry. -/
theorem exists_report_surveyed (hbudget : config.timeBudget = none) (clock : Clock α)
    (hpath : path ∈ request.files.map Prod.fst) :
    ∃ report, ((ofConfig config).project clock request.entries).reports.filter
        (fun r ↦ r.source = path) = [report] ∧
      (ofConfig config).file clock none path (request.surveyed path) = .ok report ∧
      report.candidates = (candidates config (request.surveyed path)).length := by
  obtain ⟨scan, hreport, -⟩ := exists_file (neverFails_ofConfig config) clock none path
    (request.surveyed path)
  exact ⟨_, filter_source_project hbudget clock _ (Request.mem_entriesOf_entries hpath) hreport,
    hreport, rfl⟩

/-- Nothing is lost where the last entry of every file has the candidates of all its entries. -/
theorem losesNothing_of_candidates_eq (hbudget : config.timeBudget = none)
    (h : ∀ path ∈ request.files.map Prod.fst,
      candidates config (request.surveyed path) = candidates config (request.submitted path)) :
    LosesNothing config clock request := by
  intro path hpath
  obtain ⟨report, hfilter, hreport, hcount⟩ := exists_report_surveyed hbudget clock hpath
  refine ⟨report, hfilter, ?_, ?_⟩
  · rw [← hreport]
    exact file_congr_candidates (h path hpath).symm clock none path
  · rw [hcount, h path hpath, length_candidates]

/-- Where nothing is lost, the last entry for a file has a usable fragment at the location of each
that was submitted. -/
theorem LosesNothing.exists_location_eq (h : LosesNothing config clock request)
    (hbudget : config.timeBudget = none) (hpath : path ∈ request.files.map Prod.fst) :
    ∀ f ∈ usable config (request.submitted path),
      ∃ g ∈ usable config (request.surveyed path), g.location = f.location := by
  obtain ⟨report, hfilter, -, hcount⟩ := exists_report_surveyed hbudget clock hpath
  obtain ⟨other, hother, -, hall⟩ := h path hpath
  obtain rfl : other = report := List.singleton_injective (hother.symm.trans hfilter)
  exact (request.length_candidates_surveyed_iff config path).mp (hcount.symm.trans hall)

/-- Where fragments at one location are the same, nothing is lost exactly if all usable fragments of
every file are in its last entry. -/
theorem losesNothing_iff (hbudget : config.timeBudget = none)
    (hplaces : ∀ path ∈ request.files.map Prod.fst,
      Fragment.Unambiguous (usable config (request.submitted path))) :
    LosesNothing config clock request ↔
      ∀ path ∈ request.files.map Prod.fst,
        usable config (request.submitted path) ⊆ usable config (request.surveyed path) := by
  have hsub (path : String) := usable_subset (c := config)
    (request.surveyed_subset_submitted path)
  constructor
  · intro h path hpath f hf
    obtain ⟨g, hg, hlocation⟩ := h.exists_location_eq hbudget hpath f hf
    rwa [← hplaces path hpath g (hsub path hg) f hf hlocation]
  · intro h
    refine losesNothing_of_candidates_eq hbudget fun path hpath ↦ ?_
    exact (candidates_eq_iff_usable_subset (hplaces path hpath) (hsub path)).mpr (h path hpath)

/-- Of several entries for a file the last one is surveyed. Assumes: the configuration for a request
is accepted, and it has no time budget. The answer is what was found in the project, where no file
fails. The files with a report are those that the request names. There is one report for each, on
the fragments in the last entry for the file. It counts all usable fragments that were submitted,
those at one location once, exactly if each of them is at the location of one in that entry. Nothing
is lost where that entry has the candidates of all entries for the file, as it does where every file
is named once. Where fragments at one location are the same, nothing is lost exactly if all usable
ones are in the last entry. -/
theorem survey_keeps_last_entries {settings : Settings α}
    (hconfig : request.config settings = .ok config) (hbudget : config.timeBudget = none)
    (clock : Clock α) :
    let s := ofConfig config
    let found := s.project clock request.entries
    let names := request.files.map Prod.fst
    survey settings clock request = ⟨200, found.document⟩ ∧ found.failures = [] ∧
      (∀ name, name ∈ found.reports.map (·.source) ↔ name ∈ names) ∧
      (∀ path ∈ names, ∃ report, found.reports.filter (fun r ↦ r.source = path) = [report] ∧
        s.file clock none path (request.surveyed path) = .ok report ∧
        (report.candidates = (Listing.distinct
            ((usable config (request.submitted path)).map (·.location))).length ↔
          ∀ f ∈ usable config (request.submitted path),
            ∃ g ∈ usable config (request.surveyed path), g.location = f.location)) ∧
      ((∀ path ∈ names, candidates config (request.surveyed path) =
          candidates config (request.submitted path)) → LosesNothing config clock request) ∧
      (names.Nodup → LosesNothing config clock request) ∧
      ((∀ path ∈ names, Fragment.Unambiguous (usable config (request.submitted path))) →
        (LosesNothing config clock request ↔ ∀ path ∈ names,
          usable config (request.submitted path) ⊆ usable config (request.surveyed path))) := by
  intro s found names
  have hnever : s.NeverFails := neverFails_ofConfig config
  refine ⟨?_, hnever.failures_project clock _, fun name ↦ ?_, fun path hpath ↦ ?_,
    losesNothing_of_candidates_eq hbudget, fun hnames ↦ ?_, losesNothing_iff hbudget⟩
  · rw [survey, hconfig]
  · rw [mem_sources_project hnever hbudget clock, Request.names_entries]
  · obtain ⟨report, hfilter, hreport, hcount⟩ := exists_report_surveyed hbudget clock hpath
    refine ⟨report, hfilter, hreport, ?_⟩
    rw [hcount]
    exact request.length_candidates_surveyed_iff config path
  · exact losesNothing_of_candidates_eq hbudget fun path hpath ↦
      congrArg (candidates config) (Request.surveyed_eq_submitted hnames hpath)

/-- A file is named twice, with another file between. The last entry repeats the call of the first
and adds one, so nothing is lost. -/
theorem survey_keeps_last_entries_repeated :
    let call : String → Int → Fragment := fun file line ↦
      { statements := [{ shape := "call", kind := "expression" }]
        location := ⟨file, ⟨line, line, 1, 1⟩⟩ }
    let request : Request ℚ :=
      { files := [("a", [call "a" 1]), ("b", [call "b" 1]), ("a", [call "a" 11, call "a" 1])]
        preset := none, minLines := some 1, threshold := none, crossFile := none, scope := none }
    let config : Config ℚ := { Config.default with minLines := 1 }
    let found := (ofConfig config).project Clock.stopped request.entries
    request.config Settings.default = .ok config ∧ config.timeBudget = none ∧
      survey Settings.default Clock.stopped request = ⟨200, found.document⟩ ∧
      found.failures = [] ∧ LosesNothing config Clock.stopped request := by
  intro call request config found
  have hconfig : request.config Settings.default = .ok config :=
    toOption_eq_some_iff.mp (by decide +kernel)
  have hplaces : ∀ path ∈ request.files.map Prod.fst,
      Fragment.Unambiguous (usable config (request.submitted path)) := by
    unfold Fragment.Unambiguous
    decide +kernel
  have hlast : ∀ path ∈ request.files.map Prod.fst,
      ∀ f ∈ usable config (request.submitted path), f ∈ usable config (request.surveyed path) := by
    decide +kernel
  obtain ⟨hanswer, hfailures, -, -, -, -, hiff⟩ :=
    survey_keeps_last_entries hconfig rfl Clock.stopped
  exact ⟨hconfig, rfl, hanswer, hfailures, (hiff hplaces).mpr hlast⟩

/-- A file is named twice, with one call each. The call of the first entry is lost: the report on
the file counts one call, and that on both calls counts two. -/
theorem exists_not_losesNothing :
    let call : Int → Fragment := fun line ↦
      { statements := [{ shape := "call", kind := "expression" }]
        location := ⟨"a", ⟨line, line, 1, 1⟩⟩ }
    let request : Request ℚ :=
      { files := [("a", [call 1]), ("a", [call 11])]
        preset := none, minLines := some 1, threshold := none, crossFile := none, scope := none }
    let config : Config ℚ := { Config.default with minLines := 1 }
    let s := ofConfig config
    let found := s.project Clock.stopped request.entries
    request.config Settings.default = .ok config ∧ config.timeBudget = none ∧
      survey Settings.default Clock.stopped request = ⟨200, found.document⟩ ∧
      found.failures = [] ∧ ¬ LosesNothing config Clock.stopped request ∧
      ∃ report whole, found.reports.filter (fun r ↦ r.source = "a") = [report] ∧
        s.file Clock.stopped none "a" (request.submitted "a") = .ok whole ∧
        report.candidates = 1 ∧ whole.candidates = 2 := by
  intro call request config s found
  have hconfig : request.config Settings.default = .ok config :=
    toOption_eq_some_iff.mp (by decide +kernel)
  have hpath : "a" ∈ request.files.map Prod.fst := List.mem_cons_self
  have hbudget : config.timeBudget = none := rfl
  have hnever : s.NeverFails := neverFails_ofConfig config
  refine ⟨hconfig, hbudget, ?_, hnever.failures_project Clock.stopped _, fun hall ↦ ?_, ?_⟩
  · rw [survey, hconfig]
  · obtain ⟨f, hf, hlocation⟩ := hall.exists_location_eq hbudget hpath (call 1) (by decide +kernel)
    have hnone : ∀ f ∈ usable config (request.surveyed "a"), f.location ≠ (call 1).location := by
      decide +kernel
    exact hnone f hf hlocation
  · obtain ⟨report, hfilter, -, hcount⟩ := exists_report_surveyed hbudget Clock.stopped hpath
    obtain ⟨scan, hwhole, -⟩ := exists_file hnever Clock.stopped none "a" (request.submitted "a")
    refine ⟨report, _, hfilter, hwhole, ?_, ?_⟩
    · rw [hcount, length_candidates]
      decide +kernel
    · change (candidates config (request.submitted "a")).length = 2
      rw [length_candidates]
      decide +kernel

end Service

end NearClone
