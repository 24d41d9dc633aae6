import NearClone.Proofs.Survey.Deadline
import NearClone.Proofs.Survey.Project

/-!
# Failures of single files

Comparisons may fail, and a failure ends the survey of its file. Without a time budget no file waits
for another: in the survey of a project the outcome for every file is the one it has alone
(`scanFiles_eq_map_alone`), and the pass over the whole project looks at the files that did not fail
(`project_eq_of_timeBudget_eq_none`). So the report on a file is the only one under its name
(`filter_source_project`), and the files that did not fail have the reports they would have without
the others (`project_isolates`).

The failure of the pass is recorded under a name of its own. A file of that name shares the entry.
-/

set_option autoImplicit false
set_option relaxedAutoImplicit false

namespace NearClone

namespace Survey

variable {α : Type}

/-! ### Outcomes of entries -/

/-- An outcome that is a report. -/
theorem toOption_eq_some_iff {ε β : Type} {outcome : Except ε β} {found : β} :
    outcome.toOption = some found ↔ outcome = .ok found := by
  cases outcome with
  | ok other => exact ⟨fun h ↦ congrArg _ (Option.some.inj h), fun h ↦ congrArg _ (Except.ok.inj h)⟩
  | error message => exact iff_of_false (fun h ↦ nomatch h) fun h ↦ nomatch h

section Outcomes

variable {alone : FileEntry → Except String (Report α)} {entries files : List FileEntry}
  {report : Report α} {name message : String}

/-- Names are compared by their order. -/
theorem compareOn_name_eq_lt {d e : FileEntry} :
    compareOn (fun e : FileEntry ↦ e.1) d e = .lt ↔ d.1 < e.1 :=
  compareOfLessAndEq_eq_lt

/-- Entries come in the order of their names, and every name comes once. -/
theorem pairwise_names_entriesOf (files : List FileEntry) :
    (entriesOf files).Pairwise fun d e ↦ d.1 < e.1 := by
  refine (Listing.pairwise_lt_sortBy ?_).imp compareOn_name_eq_lt.mp
  exact (List.pairwise_map.mp (Listing.nodup_keys_assignAll files)).imp fun hne heq ↦
    hne (Std.LawfulEqOrd.eq_of_compare heq)

/-- Entries that come in the order of their names, every name once, stay as they are. -/
theorem entriesOf_eq_self (h : entries.Pairwise fun d e ↦ d.1 < e.1) :
    entriesOf entries = entries := by
  have hnames : (entries.map Prod.fst).Nodup :=
    List.pairwise_map.mpr (h.imp fun hlt ↦ Std.ne_of_lt hlt)
  rw [entriesOf, Listing.assignAll_of_nodup hnames]
  exact Listing.sortBy_of_pairwise (h.imp fun hlt ↦
    Ordering.isLE_iff_eq_lt_or_eq_eq.mpr (Or.inl (compareOn_name_eq_lt.mpr hlt)))

/-- The reports are those of the entries that have one. -/
theorem mem_reportsOf_map :
    report ∈ reportsOf (entries.map fun e ↦ (e, alone e)) ↔
      ∃ e ∈ entries, alone e = .ok report := by
  rw [reportsOf, List.filterMap_map, List.mem_filterMap]
  refine exists_congr fun e ↦ and_congr_right fun _ ↦ ?_
  exact toOption_eq_some_iff

/-- Under the name of an entry there is the report on it, and no other. -/
theorem filter_source_reportsOf (hnames : (entries.map Prod.fst).Nodup)
    (hsource : ∀ e ∈ entries, ∀ report, alone e = .ok report → report.source = e.1)
    {entry : FileEntry} (hentry : entry ∈ entries) (hreport : alone entry = .ok report) :
    (reportsOf (entries.map fun e ↦ (e, alone e))).filter (fun r ↦ r.source = entry.1) =
      [report] := by
  have hflat : reportsOf (entries.map fun e ↦ (e, alone e)) =
      entries.flatMap fun e ↦ (alone e).toOption.toList := by
    rw [reportsOf, List.filterMap_map, List.filterMap_eq_flatMap_toList]
    rfl
  have hitems : ∀ e ∈ entries, ∀ r ∈ (alone e).toOption.toList, r.source = e.1 := by
    intro e he r hr
    exact hsource e he r (toOption_eq_some_iff.mp (Option.mem_toList.mp hr))
  rw [hflat, Listing.filter_flatMap_of_mem hnames hitems hentry, hreport]
  rfl

/-- The failures are those of the entries that have no report. -/
theorem mem_failuresOf_map :
    (name, message) ∈ failuresOf (entries.map fun e ↦ (e, alone e)) ↔
      ∃ e ∈ entries, e.1 = name ∧ alone e = .error message := by
  rw [failuresOf, List.filterMap_map, List.mem_filterMap]
  refine exists_congr fun e ↦ and_congr_right fun _ ↦ ?_
  simp only [Function.comp_apply]
  cases alone e with
  | ok found => simp only [reduceCtorEq, and_false]
  | error text => simp only [Option.some.injEq, Prod.mk.injEq, Except.error.injEq]

/-- The reports come in the order of the names of their files. -/
theorem pairwise_source_reportsOf (h : entries.Pairwise fun d e ↦ d.1 < e.1)
    (hsource : ∀ e ∈ entries, ∀ report, alone e = .ok report → report.source = e.1) :
    ((reportsOf (entries.map fun e ↦ (e, alone e))).map (·.source)).Pairwise (· < ·) := by
  rw [List.pairwise_map, reportsOf, List.filterMap_map, List.pairwise_filterMap]
  refine h.imp_of_mem fun {d e} hd he hlt report hreport other hother ↦ ?_
  have hfirst : alone d = .ok report := toOption_eq_some_iff.mp hreport
  have hsecond : alone e = .ok other := toOption_eq_some_iff.mp hother
  rw [hsource d hd report hfirst, hsource e he other hsecond]
  exact hlt

/-- The names of the failures are some of those of the entries. -/
theorem keys_failuresOf_sublist :
    ((failuresOf (entries.map fun e ↦ (e, alone e))).map Prod.fst).Sublist
      (entries.map Prod.fst) := by
  induction entries with
  | nil => exact List.Sublist.refl _
  | cons e rest ih =>
    rw [List.map_cons, failuresOf, List.filterMap_cons]
    cases alone e with
    | ok report => exact ih.cons e.1
    | error message => exact ih.cons_cons e.1

/-- What is left are the candidates of the entries that have a report. -/
theorem remaining_map :
    remaining (entries.map fun e ↦ (e, alone e)) =
      (entries.filter fun e ↦ (alone e).isOk).flatMap Prod.snd := by
  induction entries with
  | nil => rfl
  | cons e rest ih =>
    rw [List.map_cons, remaining, List.flatMap_cons, List.filter_cons]
    change _ ++ remaining _ = _
    rw [ih]
    cases alone e <;> rfl

/-- The entries without a report add no report. -/
theorem reportsOf_map_filter :
    reportsOf ((entries.filter fun e ↦ (alone e).isOk).map fun e ↦ (e, alone e)) =
      reportsOf (entries.map fun e ↦ (e, alone e)) := by
  simp only [reportsOf, List.filterMap_map, List.filterMap_filter]
  refine List.filterMap_congr fun e _ ↦ ?_
  simp only [Function.comp_apply]
  cases alone e <;> rfl

/-- The failures of files, and that of the pass over the project under a name of its own. -/
def failuresWith (pass : Option (Except String (Report α))) (failures : List (String × String)) :
    List (String × String) :=
  match pass with
  | some (.error message) => Listing.assign projectName message failures
  | _ => failures

/-- Every name comes once among the failures. -/
theorem nodup_keys_failuresWith {failures : List (String × String)}
    (h : (failures.map Prod.fst).Nodup) (pass : Option (Except String (Report α))) :
    ((failuresWith pass failures).map Prod.fst).Nodup := by
  match pass with
  | none => exact h
  | some (.ok _) => exact h
  | some (.error _) => exact Listing.nodup_keys_assign h

/-- The failure of the pass takes the place of that of a file of its name, and no other. -/
theorem mem_failuresWith_iff {failures : List (String × String)}
    (h : (failures.map Prod.fst).Nodup) {pass : Option (Except String (Report α))} :
    (name, message) ∈ failuresWith pass failures ↔
      (name = projectName ∧ pass = some (.error message)) ∨
        (name, message) ∈ failures ∧ (name = projectName → ∀ text, pass ≠ some (.error text)) := by
  have hkept (hpass : ∀ text, pass ≠ some (.error text)) :
      (name, message) ∈ failures ↔ (name = projectName ∧ pass = some (.error message)) ∨
        (name, message) ∈ failures ∧ (name = projectName → ∀ text, pass ≠ some (.error text)) := by
    rw [or_iff_right fun hfails ↦ hpass message hfails.2]
    exact (and_iff_left fun _ ↦ hpass).symm
  match pass with
  | none => exact hkept fun _ h ↦ nomatch h
  | some (.ok _) => exact hkept fun _ h ↦ nomatch h
  | some (.error text) =>
    refine (Listing.mem_assign_iff h).trans (or_congr ?_ (and_congr_right fun _ ↦ ?_))
    · simp only [Prod.mk.injEq, Option.some.injEq, Except.error.injEq, eq_comm]
    · exact ⟨fun hne heq ↦ absurd heq hne, fun hpass heq ↦ hpass heq text rfl⟩

end Outcomes

end Survey

open Survey in
/-- Whatever fails, the files of a project stay apart: each has the report that it has alone, or its
failure is recorded. The failure of the pass over the project is recorded under a name of its own,
and where there is a file of that name, in place of a failure of that file. -/
structure ProjectReport.Isolated {α : Type} (found : ProjectReport α) (entries : List FileEntry)
    (alone : FileEntry → Except String (Report α)) (pass : Option (Except String (Report α))) :
    Prop where
  mem_reports : ∀ report, report ∈ found.reports ↔
    ∃ e ∈ entries, report.source = e.1 ∧ alone e = .ok report
  ascending : (found.reports.map (·.source)).Pairwise (· < ·)
  mem_failures : ∀ name message, (name, message) ∈ found.failures ↔
    (name = projectName ∧ pass = some (.error message)) ∨
      (∃ e ∈ entries, e.1 = name ∧ alone e = .error message) ∧
        (name = projectName → ∀ text, pass ≠ some (.error text))
  nodup_failures : (found.failures.map Prod.fst).Nodup
  whole_eq : found.whole = pass.bind Except.toOption

open Survey in
/-- A file has either a report or a failure, unless the failure of the pass is recorded under its
name. -/
theorem ProjectReport.Isolated.report_xor_failure {α : Type} {found : ProjectReport α}
    {entries : List FileEntry} {alone : FileEntry → Except String (Report α)}
    {pass : Option (Except String (Report α))} (h : found.Isolated entries alone pass)
    (hnames : (entries.map Prod.fst).Nodup)
    (hsource : ∀ e ∈ entries, ∀ report, alone e = .ok report → report.source = e.1)
    {e : FileEntry} (he : e ∈ entries)
    (hpass : e.1 = projectName → ∀ text, pass ≠ some (.error text)) :
    Xor (e.1 ∈ found.reports.map (·.source)) (e.1 ∈ found.failures.map Prod.fst) := by
  have heq {d : FileEntry} (hd : d ∈ entries) (hname : d.1 = e.1) : d = e :=
    List.inj_on_of_nodup_map hnames hd he hname
  have hreported : e.1 ∈ found.reports.map (·.source) ↔ ∃ report, alone e = .ok report := by
    constructor
    · intro hmem
      obtain ⟨report, hreport, hname⟩ := List.mem_map.mp hmem
      obtain ⟨d, hd, hfile, hfound⟩ := (h.mem_reports report).mp hreport
      obtain rfl := heq hd (hfile.symm.trans hname)
      exact ⟨report, hfound⟩
    · rintro ⟨report, hfound⟩
      have hfile := hsource e he report hfound
      exact List.mem_map.mpr ⟨report, (h.mem_reports report).mpr ⟨e, he, hfile, hfound⟩, hfile⟩
  have hfailed : e.1 ∈ found.failures.map Prod.fst ↔ ∃ message, alone e = .error message := by
    constructor
    · intro hmem
      obtain ⟨⟨name, message⟩, hfailure, rfl⟩ := List.mem_map.mp hmem
      rcases (h.mem_failures _ _).mp hfailure with ⟨hname, hfails⟩ | ⟨⟨d, hd, hname, hfails⟩, -⟩
      · exact absurd hfails (hpass hname message)
      · obtain rfl := heq hd hname
        exact ⟨message, hfails⟩
    · rintro ⟨message, hfails⟩
      refine List.mem_map.mpr ⟨(e.1, message), (h.mem_failures _ _).mpr (Or.inr ?_), rfl⟩
      exact ⟨⟨e, he, rfl, hfails⟩, hpass⟩
  rw [hreported, hfailed]
  cases alone e with
  | ok report => exact Or.inl ⟨⟨report, rfl⟩, fun ⟨_, hfails⟩ ↦ nomatch hfails⟩
  | error message => exact Or.inr ⟨⟨message, rfl⟩, fun ⟨_, hfound⟩ ↦ nomatch hfound⟩

namespace Survey

variable {α : Type} [Scalar α] {s : Survey α} {w : Watch α} {files entries : List FileEntry}

/-! ### Surveys without a deadline -/

/-- The outcome for a file alone. -/
def alone (s : Survey α) (clock : Clock α) (entry : FileEntry) : Except String (Report α) :=
  s.file clock none entry.1 entry.2

/-- The entries of the files that have a report alone. -/
def surviving (s : Survey α) (clock : Clock α) (entries : List FileEntry) : List FileEntry :=
  entries.filter fun e ↦ (s.alone clock e).isOk

/-- The outcome for all entries together, where the scope asks for it. -/
def pass (s : Survey α) (clock : Clock α) (entries : List FileEntry) :
    Option (Except String (Report α)) :=
  if s.config.effectiveScope = .project then
    some (s.file clock none projectName (entries.flatMap Prod.snd))
  else none

/-- A report is on the file it was asked for. -/
theorem source_eq_of_alone {clock : Clock α} {entry : FileEntry} {report : Report α}
    (h : s.alone clock entry = .ok report) : report.source = entry.1 := by
  rw [alone, file_eq_report] at h
  obtain ⟨scan, -, rfl⟩ := map_eq_ok_iff.mp h
  rfl

/-- Without a deadline the outcome for candidates is that for a file. -/
theorem report_eq_file (hw : w.deadline = none) (hbudget : s.config.timeBudget = none)
    (clock : Clock α) (source : String) (given : List (Option Fragment)) (reads : ℕ) :
    (s.report w source given reads).1 = s.file clock none source given := by
  rw [file_eq_compareAll_of_timeBudget_eq_none hbudget]
  change (s.scanRows w (candidates s.config given) reads).1.map _ = _
  rw [scanRows_eq_compareAll_of_deadline_eq_none hw]
  cases s.compareAll _ <;> rfl

/-- A single candidate is compared with nothing. -/
theorem file_of_candidates_eq_singleton (hbudget : s.config.timeBudget = none) (clock : Clock α)
    (source : String) (given : List (Option Fragment)) {f : Fragment}
    (h : candidates s.config given = [f]) :
    s.file clock none source given = .ok (s.reportOn source given false []) := by
  rw [file_eq_compareAll_of_timeBudget_eq_none hbudget, h]
  rfl

/-- The outcome for two candidates that the filters admit is that of comparing them. -/
theorem file_of_candidates_eq_pair (hbudget : s.config.timeBudget = none) (clock : Clock α)
    (source : String) (given : List (Option Fragment)) {f g : Fragment}
    (h : candidates s.config given = [f, g])
    (hadmits : Filter.admitsAll s.config s.filters f g = true) :
    s.file clock none source given =
      (s.comparePair (f, g)).map fun p ↦ s.reportOn source given false [p] := by
  have hpairs : Listing.rowPairs [f, g] = [(f, g)] := rfl
  rw [file_eq_compareAll_of_timeBudget_eq_none hbudget, h, hpairs,
    compareAll_cons_of_admits hadmits, compareAll_nil, comparePair]
  cases s.compare f g <;> rfl

/-- Without a deadline the outcome for every file is the one it has alone. -/
theorem scanFiles_eq_map_alone (hw : w.deadline = none) (hbudget : s.config.timeBudget = none)
    (clock : Clock α) (entries : List FileEntry) (reads : ℕ) :
    (s.scanFiles w entries reads).1 = entries.map fun e ↦ (e, s.alone clock e) := by
  induction entries generalizing reads with
  | nil => rfl
  | cons entry rest ih =>
    have hcons : (s.scanFiles w (entry :: rest) reads).1 =
        (entry, (s.report w entry.1 entry.2 reads).1) ::
          (s.scanFiles w rest (s.report w entry.1 entry.2 reads).2).1 := rfl
    rw [hcons, ih, report_eq_file hw hbudget clock, List.map_cons, alone]

/-- Without a time budget a project has the outcomes of its files alone, and that of the pass over
the files that have a report. -/
theorem project_eq_of_timeBudget_eq_none (hbudget : s.config.timeBudget = none)
    (clock clock' : Clock α) (files : List FileEntry) :
    let outcomes := (entriesOf files).map fun e ↦ (e, s.alone clock' e)
    let pass := s.pass clock' (s.surviving clock' (entriesOf files))
    s.project clock files =
      { reports := reportsOf outcomes
        failures := failuresWith pass (failuresOf outcomes)
        whole := pass.bind Except.toOption } := by
  intro outcomes pass
  have hstart : Watch.start clock s.config.timeBudget 0 = (⟨clock, none⟩, 0) := by
    rw [hbudget]
    rfl
  unfold project
  simp only [hstart]
  cases hscan : s.scanFiles ⟨clock, none⟩ (entriesOf files) 0 with
  | mk found reads =>
    obtain rfl : found = outcomes :=
      (congrArg Prod.fst hscan).symm.trans
        (scanFiles_eq_map_alone rfl hbudget clock' (entriesOf files) 0)
    by_cases hscope : s.config.effectiveScope = .project
    · have hpass :
          pass = some (s.report ⟨clock, none⟩ projectName (remaining outcomes) reads).1 := by
        rw [report_eq_file rfl hbudget clock', remaining_map]
        exact if_pos hscope
      simp only [if_pos hscope, hpass]
      cases (s.report ⟨clock, none⟩ projectName (remaining outcomes) reads).1 <;> rfl
    · have hpass : pass = none := if_neg hscope
      simp only [if_neg hscope, hpass]
      rfl

/-- Without a time budget the report on an entry is the only one under its name. -/
theorem filter_source_project (hbudget : s.config.timeBudget = none) (clock : Clock α)
    (files : List FileEntry) {entry : FileEntry} {report : Report α}
    (hentry : entry ∈ entriesOf files) (hreport : s.alone clock entry = .ok report) :
    (s.project clock files).reports.filter (fun r ↦ r.source = entry.1) = [report] := by
  rw [project_eq_of_timeBudget_eq_none hbudget clock clock]
  exact filter_source_reportsOf (nodup_names_entriesOf files)
    (fun e _ report h ↦ source_eq_of_alone h) hentry hreport

/-- Where no comparison fails and there is no time budget, all files have a report. -/
theorem mem_sources_project (hs : s.NeverFails) (hbudget : s.config.timeBudget = none)
    (clock : Clock α) {name : String} :
    name ∈ (s.project clock files).reports.map (·.source) ↔ name ∈ files.map Prod.fst := by
  rw [project_eq_of_timeBudget_eq_none hbudget clock clock, ← mem_names_entriesOf]
  constructor
  · intro hname
    obtain ⟨report, hreport, rfl⟩ := List.mem_map.mp hname
    obtain ⟨entry, hentry, halone⟩ := mem_reportsOf_map.mp hreport
    exact List.mem_map.mpr ⟨entry, hentry, (source_eq_of_alone halone).symm⟩
  · intro hname
    obtain ⟨entry, hentry, rfl⟩ := List.mem_map.mp hname
    obtain ⟨scan, halone, -⟩ := exists_file hs clock none entry.1 entry.2
    exact List.mem_map.mpr ⟨_, mem_reportsOf_map.mpr ⟨entry, hentry, halone⟩, rfl⟩

/-- The entries of the files that have a report stay as they are. -/
theorem entriesOf_surviving (s : Survey α) (clock : Clock α) (files : List FileEntry) :
    entriesOf (s.surviving clock (entriesOf files)) = s.surviving clock (entriesOf files) :=
  entriesOf_eq_self ((pairwise_names_entriesOf files).filter _)

/-- All of these files have a report. -/
theorem surviving_surviving (s : Survey α) (clock : Clock α) (entries : List FileEntry) :
    s.surviving clock (s.surviving clock entries) = s.surviving clock entries := by
  rw [surviving, List.filter_eq_self]
  exact fun e he ↦ (List.mem_filter.mp he).2

/-- Without a time budget the files of a project stay apart, whichever comparisons fail. Each has
either a report or a failure, the one it has alone, unless the pass over the project fails and is
recorded under the name of the file. The reports come in the order of the names. Without the files
that fail the reports are the same, and so is the one on the whole project. -/
theorem project_isolates (hbudget : s.config.timeBudget = none) (clock clock' : Clock α)
    (files : List FileEntry) :
    let survivors := s.surviving clock' (entriesOf files)
    let pass := s.pass clock' survivors
    let found := s.project clock files
    found.Isolated (entriesOf files) (s.alone clock') pass ∧
      (∀ e ∈ entriesOf files, (e.1 = projectName → ∀ message, pass ≠ some (.error message)) →
        Xor (e.1 ∈ found.reports.map (·.source)) (e.1 ∈ found.failures.map Prod.fst)) ∧
      (s.project clock survivors).reports = found.reports ∧
      (s.project clock survivors).whole = found.whole := by
  intro survivors pass found
  let outcomes := (entriesOf files).map fun e ↦ (e, s.alone clock' e)
  have hfound : found = ⟨reportsOf outcomes, failuresWith pass (failuresOf outcomes),
      pass.bind Except.toOption⟩ := project_eq_of_timeBudget_eq_none hbudget clock clock' files
  have hsource : ∀ e ∈ entriesOf files, ∀ report, s.alone clock' e = .ok report →
      report.source = e.1 := fun e _ report h ↦ source_eq_of_alone h
  have hown : ((failuresOf outcomes).map Prod.fst).Nodup :=
    keys_failuresOf_sublist.nodup (nodup_names_entriesOf files)
  have hisolated : found.Isolated (entriesOf files) (s.alone clock') pass := by
    rw [hfound]
    refine ⟨fun report ↦ ?_, ?_, fun name message ↦ ?_, nodup_keys_failuresWith hown pass, rfl⟩
    · refine mem_reportsOf_map.trans (exists_congr fun e ↦ and_congr_right fun he ↦ ?_)
      exact (and_iff_right_of_imp (hsource e he report)).symm
    · exact pairwise_source_reportsOf (pairwise_names_entriesOf files) hsource
    · rw [mem_failuresWith_iff hown, mem_failuresOf_map]
  have hsurvivors := project_eq_of_timeBudget_eq_none hbudget clock clock' survivors
  simp only [survivors, entriesOf_surviving, surviving_surviving] at hsurvivors
  refine ⟨hisolated, fun e he hpass ↦ ?_, ?_, ?_⟩
  · exact hisolated.report_xor_failure (nodup_names_entriesOf files) hsource he hpass
  · rw [hsurvivors, hfound]
    exact reportsOf_map_filter
  · rw [hsurvivors, hfound]

/-- The calls of one file cannot be compared. The reports on the two other files, and the one on the
whole project, are those without it. -/
theorem project_isolates_unreadable :
    let config : Config ℚ := { Config.default with minLines := 1, crossFile := true }
    let s : Survey ℚ :=
      { config
        compare := fun f g ↦
          if f.file = "b" then .error "unreadable"
          else .ok (Similarity.compare config.weights f g) }
    let call : String → Int → Fragment := fun file line ↦
      { statements := [{ shape := "call", kind := "expression" }]
        location := ⟨file, ⟨line, line, 1, 1⟩⟩ }
    let a : FileEntry := ("a", [some (call "a" 1)])
    let b : FileEntry := ("b", [some (call "b" 11), some (call "b" 21)])
    let c : FileEntry := ("c", [some (call "c" 31)])
    let found := s.project Clock.stopped [a, b, c]
    config.timeBudget = none ∧ found.failures = [("b", "unreadable")] ∧
      found.reports.map (·.source) = ["a", "c"] ∧ found.whole.isSome = true ∧
      (s.project Clock.stopped [a, c]).reports = found.reports ∧
      (s.project Clock.stopped [a, c]).whole = found.whole := by
  intro config s call a b c found
  have hbudget : s.config.timeBudget = none := rfl
  have ha : s.alone Clock.stopped a = .ok (s.reportOn "a" a.2 false []) :=
    file_of_candidates_eq_singleton hbudget Clock.stopped "a" a.2 (f := call "a" 1)
      (Listing.sortBy_of_pairwise (by decide +kernel))
  have hb : s.alone Clock.stopped b = .error "unreadable" :=
    file_of_candidates_eq_pair hbudget Clock.stopped "b" b.2 (f := call "b" 11)
      (g := call "b" 21) (Listing.sortBy_of_pairwise (by decide +kernel)) (by decide +kernel)
  have hc : s.alone Clock.stopped c = .ok (s.reportOn "c" c.2 false []) :=
    file_of_candidates_eq_singleton hbudget Clock.stopped "c" c.2 (f := call "c" 31)
      (Listing.sortBy_of_pairwise (by decide +kernel))
  have hentries : entriesOf [a, b, c] = [a, b, c] := entriesOf_eq_self (by decide +kernel)
  have hsurvivors : s.surviving Clock.stopped (entriesOf [a, b, c]) = [a, c] := by
    simp only [surviving, hentries, List.filter_cons, ha, hb, hc, Except.isOk, Except.toBool,
      if_true, Bool.false_eq_true, if_false, List.filter_nil]
  let pair : ClonePair ℚ :=
    ⟨call "a" 1, call "c" 31, Similarity.compare config.weights (call "a" 1) (call "c" 31)⟩
  have hpass : s.pass Clock.stopped [a, c] =
      some (.ok (s.reportOn projectName (a.2 ++ c.2) false [pair])) :=
    congrArg some (file_of_candidates_eq_pair hbudget Clock.stopped projectName (a.2 ++ c.2)
      (f := call "a" 1) (g := call "c" 31) (Listing.sortBy_of_pairwise (by decide +kernel))
      (by decide +kernel))
  have hfound := project_eq_of_timeBudget_eq_none hbudget Clock.stopped Clock.stopped [a, b, c]
  rw [hsurvivors, hpass, hentries] at hfound
  simp only [List.map_cons, List.map_nil, ha, hb, hc] at hfound
  obtain ⟨-, -, hreports, hwhole⟩ :=
    project_isolates hbudget Clock.stopped Clock.stopped [a, b, c]
  rw [hsurvivors] at hreports hwhole
  refine ⟨rfl, ?_, ?_, ?_, hreports, hwhole⟩
  · exact congrArg ProjectReport.failures hfound
  · exact congrArg (fun found : ProjectReport ℚ ↦ found.reports.map (·.source)) hfound
  · exact congrArg (fun found : ProjectReport ℚ ↦ found.whole.isSome) hfound

/-- No call can be compared of a file with the name of the whole project, and none of another file.
The failure of the first is lost: under its name stands that of the pass over the other files. -/
theorem project_replaces_failure :
    let config : Config ℚ := { Config.default with minLines := 1, crossFile := true }
    let s : Survey ℚ :=
      { config
        compare := fun f g ↦
          if f.file = "b" then .ok (Similarity.compare config.weights f g)
          else .error ("unreadable " ++ f.file) }
    let call : String → Int → Fragment := fun file line ↦
      { statements := [{ shape := "call", kind := "expression" }]
        location := ⟨file, ⟨line, line, 1, 1⟩⟩ }
    let whole : FileEntry := (projectName, [some (call projectName 1), some (call projectName 11)])
    let a : FileEntry := ("a", [some (call "a" 21)])
    let b : FileEntry := ("b", [some (call "b" 31)])
    config.timeBudget = none ∧
      s.file Clock.stopped none projectName whole.2 = .error "unreadable <project>" ∧
      (s.project Clock.stopped [whole, a, b]).failures = [(projectName, "unreadable a")] := by
  intro config s call whole a b
  have hbudget : s.config.timeBudget = none := rfl
  have hwhole : s.alone Clock.stopped whole = .error "unreadable <project>" :=
    file_of_candidates_eq_pair hbudget Clock.stopped projectName whole.2
      (f := call projectName 1) (g := call projectName 11)
      (Listing.sortBy_of_pairwise (by decide +kernel)) (by decide +kernel)
  have ha : s.alone Clock.stopped a = .ok (s.reportOn "a" a.2 false []) :=
    file_of_candidates_eq_singleton hbudget Clock.stopped "a" a.2 (f := call "a" 21)
      (Listing.sortBy_of_pairwise (by decide +kernel))
  have hb : s.alone Clock.stopped b = .ok (s.reportOn "b" b.2 false []) :=
    file_of_candidates_eq_singleton hbudget Clock.stopped "b" b.2 (f := call "b" 31)
      (Listing.sortBy_of_pairwise (by decide +kernel))
  have hentries : entriesOf [whole, a, b] = [whole, a, b] := entriesOf_eq_self (by decide +kernel)
  have hsurvivors : s.surviving Clock.stopped (entriesOf [whole, a, b]) = [a, b] := by
    simp only [surviving, hentries, List.filter_cons, hwhole, ha, hb, Except.isOk, Except.toBool,
      if_true, Bool.false_eq_true, if_false, List.filter_nil]
  have hpass : s.pass Clock.stopped [a, b] = some (.error "unreadable a") :=
    congrArg some (file_of_candidates_eq_pair hbudget Clock.stopped projectName (a.2 ++ b.2)
      (f := call "a" 21) (g := call "b" 31) (Listing.sortBy_of_pairwise (by decide +kernel))
      (by decide +kernel))
  have hfound := project_eq_of_timeBudget_eq_none hbudget Clock.stopped Clock.stopped [whole, a, b]
  rw [hsurvivors, hpass, hentries] at hfound
  simp only [List.map_cons, List.map_nil, hwhole, ha, hb] at hfound
  exact ⟨rfl, hwhole, congrArg ProjectReport.failures hfound⟩

end Survey

end NearClone
