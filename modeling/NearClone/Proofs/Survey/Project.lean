import NearClone.Proofs.Listing.Assigned
import NearClone.Proofs.Survey.Restriction

/-!
# Files within a project

Where no file fails, the survey of a project has a report on every file and one on all of them
together (`exists_found`). The two passes agree: fragments of different files are at different
locations, so the candidates of a file are those of the project that are in the file
(`candidates_of_mem_entries`), and the report on the file restricts the one on the project to the
clone pairs within the file (`project_restricts`).
-/

set_option autoImplicit false
set_option relaxedAutoImplicit false

namespace NearClone

namespace Survey

variable {α : Type}

/-! ### Entries of files -/

variable {files entries : List FileEntry} {entry : FileEntry}

/-- There is one entry for every file name. -/
theorem nodup_names_entriesOf (files : List FileEntry) :
    ((entriesOf files).map Prod.fst).Nodup :=
  ((Listing.sortBy_perm _ _).map _).nodup_iff.mpr (Listing.nodup_keys_assignAll files)

/-- The names of the entries are those of the files. -/
theorem mem_names_entriesOf {name : String} :
    name ∈ (entriesOf files).map Prod.fst ↔ name ∈ files.map Prod.fst :=
  ((Listing.sortBy_perm _ _).map _).mem_iff.trans Listing.mem_keys_assignAll

/-- Every entry is one of a file. -/
theorem mem_of_mem_entriesOf (h : entry ∈ entriesOf files) : entry ∈ files :=
  Listing.mem_of_mem_assignAll (Listing.mem_sortBy.mp h)

/-- The fragments of every entry are in the file of that name. -/
def Placed (entries : List FileEntry) : Prop :=
  ∀ entry ∈ entries, ∀ f, some f ∈ entry.2 → f.file = entry.1

/-- The candidates of one file are those of all files that are in it. -/
theorem candidates_of_mem_entries (c : Config α) (hnames : (entries.map Prod.fst).Nodup)
    (hplaced : Placed entries) (hentry : entry ∈ entries) :
    candidates c entry.2 =
      (candidates c (entries.flatMap Prod.snd)).filter fun f ↦ f.file = entry.1 := by
  have husable : usable c (entries.flatMap Prod.snd) = entries.flatMap fun e ↦ usable c e.2 := by
    rw [usable, List.filterMap_flatMap, List.filter_flatMap]
    rfl
  have hfile {e : FileEntry} (he : e ∈ entries) {f : Fragment} (hf : f ∈ usable c e.2) :
      f.file = e.1 := hplaced e he f (mem_usable.mp hf).1
  refine candidates_of_usable_eq_filter ?_ ?_
  · intro f g hlocation
    rw [Fragment.file, Fragment.file, hlocation]
  · rw [husable]
    exact (Listing.filter_flatMap_of_mem hnames (fun e he f hf ↦ hfile he hf) hentry).symm

/-! ### Outcomes without a failure -/

/-- An entry with the report on it. -/
abbrev Found (α : Type) : Type := FileEntry × Report α

/-- The outcome that a report is. -/
def Found.outcome (x : Found α) : FileEntry × Except String (Report α) := (x.1, .ok x.2)

/-- All reports are outcomes that are reports. -/
theorem reportsOf_map_outcome (found : List (Found α)) :
    reportsOf (found.map Found.outcome) = found.map Prod.snd := by
  rw [reportsOf, List.filterMap_map, ← List.filterMap_eq_map]
  rfl

/-- All candidates are left where all outcomes are reports. -/
theorem remaining_map_outcome (found : List (Found α)) :
    remaining (found.map Found.outcome) = (found.map Prod.fst).flatMap Prod.snd := by
  rw [remaining, List.flatMap_map, List.flatMap_map]
  rfl

variable [Scalar α] {s : Survey α} {w : Watch α}

/-- Where no file fails, every outcome is the report on the candidates of its file. -/
theorem exists_found_scanFiles {reads : ℕ}
    (h : failuresOf (s.scanFiles w entries reads).1 = []) :
    ∃ found : List (Found α), found.map Prod.fst = entries ∧
      (s.scanFiles w entries reads).1 = found.map Found.outcome ∧
      ∀ x ∈ found, ∃ reads, (s.report w x.1.1 x.1.2 reads).1 = .ok x.2 := by
  induction entries generalizing reads with
  | nil => exact ⟨[], rfl, rfl, fun x hx ↦ absurd hx List.not_mem_nil⟩
  | cons entry rest ih =>
    have hcons : (s.scanFiles w (entry :: rest) reads).1 =
        (entry, (s.report w entry.1 entry.2 reads).1) ::
          (s.scanFiles w rest (s.report w entry.1 entry.2 reads).2).1 := rfl
    rw [hcons, failuresOf] at h
    cases hreport : (s.report w entry.1 entry.2 reads).1 with
    | error message =>
      rw [hreport] at h
      exact absurd h (List.cons_ne_nil _ _)
    | ok report =>
      rw [hreport] at h
      obtain ⟨found, hentries, houtcomes, hfound⟩ := ih h
      refine ⟨(entry, report) :: found, congrArg (entry :: ·) hentries, ?_, ?_⟩
      · rw [hcons, hreport, houtcomes]
        rfl
      · rw [List.forall_mem_cons]
        exact ⟨⟨reads, hreport⟩, hfound⟩

/-- Where no comparison fails, nothing fails in a project. -/
theorem NeverFails.failures_project (hs : s.NeverFails) (clock : Clock α)
    (files : List FileEntry) : (s.project clock files).failures = [] :=
  (hs.reports.project clock files).1

/-- Where nothing fails in a project, it has a report on every entry and one on all of them
together. Without a time budget there is no deadline for any of them. -/
theorem exists_found {clock : Clock α} (hscope : s.config.effectiveScope = .project)
    (hbudget : s.config.timeBudget = none) (hfailures : (s.project clock files).failures = []) :
    ∃ (found : List (Found α)) (whole : Report α),
      (s.project clock files).reports = found.map Prod.snd ∧
      (s.project clock files).whole = some whole ∧
      found.map Prod.fst = entriesOf files ∧
      (∀ x ∈ found, ∃ reads, (s.report ⟨clock, none⟩ x.1.1 x.1.2 reads).1 = .ok x.2) ∧
      ∃ reads, (s.report ⟨clock, none⟩ projectName ((entriesOf files).flatMap Prod.snd)
        reads).1 = .ok whole := by
  have hstart : Watch.start clock s.config.timeBudget 0 = (⟨clock, none⟩, 0) := by
    rw [hbudget]
    rfl
  unfold project at hfailures ⊢
  simp only [hstart, hscope, if_true] at hfailures ⊢
  cases hwhole : (s.report ⟨clock, none⟩ projectName
      (remaining (s.scanFiles ⟨clock, none⟩ (entriesOf files) 0).1)
      (s.scanFiles ⟨clock, none⟩ (entriesOf files) 0).2).1 with
  | error message =>
    simp only [hwhole] at hfailures
    exact absurd hfailures (Listing.assign_ne_nil _ _ _)
  | ok whole =>
    simp only [hwhole] at hfailures ⊢
    obtain ⟨found, hentries, houtcomes, hfound⟩ := exists_found_scanFiles hfailures
    rw [houtcomes, remaining_map_outcome, hentries] at hwhole
    rw [houtcomes, reportsOf_map_outcome]
    exact ⟨found, whole, rfl, rfl, hentries, hfound, _, hwhole⟩

/-- The survey of each file and that of the whole project agree. Assumes: numbers that are ordered,
the project as the scope, no time budget, fragments that are in the files they are given for, and
no failure. There is a report on all files together, and one on every file. The latter has the clone
pairs of the former that are within the file, the same ones in the same order, and each of its
clusters is within just one cluster of the whole. -/
theorem project_restricts (hα : Scalar.Ordered α) (s : Survey α)
    (hscope : s.config.effectiveScope = .project) (hbudget : s.config.timeBudget = none)
    {files : List FileEntry} (hplaced : Placed files) (clock : Clock α)
    (hfailures : (s.project clock files).failures = []) :
    ((s.project clock files).reports.map (·.source)).Nodup ∧
    (∀ name, name ∈ (s.project clock files).reports.map (·.source) ↔
      name ∈ files.map Prod.fst) ∧
    ∃ whole, (s.project clock files).whole = some whole ∧
      ∀ report ∈ (s.project clock files).reports, report.Restricts whole fun p ↦
        p.left.file = report.source ∧ p.right.file = report.source := by
  obtain ⟨found, whole, hreports, hwhole, hentries, hfound, reads, hwholeReport⟩ :=
    exists_found hscope hbudget hfailures
  have hfull {x : Found α} (hx : x ∈ found) :
      x.2.source = x.1.1 ∧ x.2.Full s (candidates s.config x.1.2) := by
    obtain ⟨reads, hreport⟩ := hfound x hx
    exact full_of_report hα rfl hreport
  have hsources : (s.project clock files).reports.map (·.source) =
      (entriesOf files).map Prod.fst := by
    rw [hreports, ← hentries, List.map_map, List.map_map]
    exact List.map_congr_left fun x hx ↦ (hfull hx).1
  refine ⟨hsources ▸ nodup_names_entriesOf files, ?_, whole, hwhole, ?_⟩
  · intro name
    rw [hsources, mem_names_entriesOf]
  · intro report hreport
    rw [hreports] at hreport
    obtain ⟨x, hx, rfl⟩ := List.mem_map.mp hreport
    have hentry : x.1 ∈ entriesOf files := hentries ▸ List.mem_map_of_mem hx
    obtain ⟨hsource, hxFull⟩ := hfull hx
    have hwholeFull := (full_of_report hα rfl hwholeReport).2
    rw [hsource]
    refine hwholeFull.restricts hα hxFull fun p ↦ ?_
    rw [candidates_of_mem_entries s.config (nodup_names_entriesOf files)
      (fun e he ↦ hplaced e (mem_of_mem_entriesOf he)) hentry, compared_filter_iff]
    simp only [decide_eq_true_eq]

/-- In a project of two files a call of the one stands between two calls of the other by its line.
Every two of them are clones, and the report on the other file has the one pair of its own. -/
theorem project_restricts_interleaved :
    let c : Config ℚ := { Config.default with minLines := 1, crossFile := true }
    let call : String → Int → Fragment := fun file line ↦
      { statements := [{ shape := "call", kind := "expression" }]
        location := ⟨file, ⟨line, line, 1, 1⟩⟩ }
    let files : List FileEntry :=
      [("a", [some (call "a" 1), some (call "a" 21)]), ("b", [some (call "b" 11)])]
    let found := (ofConfig c).project Clock.stopped files
    Scalar.Ordered ℚ ∧ c.effectiveScope = .project ∧ c.timeBudget = none ∧ Placed files ∧
      found.failures = [] ∧
      ∃ whole, found.whole = some whole ∧ whole.duplicates.length = 3 ∧
        ∃ report ∈ found.reports, report.source = "a" ∧ report.duplicates.length = 1 ∧
          report.Restricts whole fun p ↦ p.left.file = "a" ∧ p.right.file = "a" := by
  intro c call files found
  have hplaced : Placed files := by
    simp [Placed, files, call, Fragment.file]
  have hfailures : found.failures = [] :=
    (neverFails_ofConfig c).failures_project Clock.stopped files
  have hentries : entriesOf files = files := Listing.sortBy_of_pairwise (by decide +kernel)
  let given := files.flatMap Prod.snd
  have hcandidates : candidates c given = [call "a" 1, call "b" 11, call "a" 21] := by
    have husable : usable c given = [call "a" 1, call "a" 21, call "b" 11] := by decide +kernel
    have hplaces : Fragment.Unambiguous (usable c given) := by
      rw [husable, Fragment.Unambiguous]
      decide +kernel
    refine candidates_eq_of_mem_iff (by decide +kernel) fun f ↦ ?_
    rw [mem_candidates_iff hplaces, husable]
    simp only [List.mem_cons, List.not_mem_nil, or_false]
    tauto
  let pairs : List (ClonePair ℚ) :=
    [(call "a" 1, call "b" 11), (call "a" 1, call "a" 21), (call "b" 11, call "a" 21)].map
      fun (f, g) ↦ ⟨f, g, Similarity.compare c.weights f g⟩
  have hscan (reads : ℕ) : ((ofConfig c).scanRows ⟨Clock.stopped, none⟩ (candidates c given)
      reads).1 = .ok ⟨pairs, 3, false⟩ := by
    have hadmits : ∀ p ∈ pairs, Filter.admitsAll c Filter.standard p.left p.right = true := by
      decide +kernel
    have haccepts : ∀ p ∈ pairs, c.accepts p.left p.right p.similarity = true := by
      decide +kernel
    simp only [pairs, List.map_cons, List.map_nil, List.forall_mem_cons] at hadmits haccepts
    simp [hcandidates, scanRows, scanRow, Watch.check, ofConfig, judge, Scan.append, Except.map,
      hadmits, haccepts, pairs]
  obtain ⟨-, hnames, whole, hwhole, hrestricts⟩ := project_restricts Scalar.ordered_rat
    (ofConfig c) rfl rfl hplaced Clock.stopped hfailures
  have hduplicates : whole.duplicates.Perm pairs := by
    obtain ⟨-, other, -, hother, -, -, reads, hreport⟩ := exists_found rfl rfl hfailures
    rw [hentries] at hreport
    obtain rfl := Option.some.inj (hother.symm.trans hwhole)
    obtain rfl := Except.ok.inj (hreport.symm.trans (congrArg (Except.map _) (hscan reads)))
    exact Listing.sortBy_perm _ _
  obtain ⟨report, hreport, hsource⟩ := List.mem_map.mp ((hnames "a").mpr List.mem_cons_self)
  have hwithin := hrestricts report hreport
  rw [hsource] at hwithin
  refine ⟨Scalar.ordered_rat, rfl, rfl, hplaced, hfailures, whole, hwhole, hduplicates.length_eq,
    report, hreport, hsource, ?_, hwithin⟩
  rw [hwithin.duplicates_eq]
  exact (hduplicates.filter _).length_eq.trans (by decide +kernel)

end Survey

end NearClone
