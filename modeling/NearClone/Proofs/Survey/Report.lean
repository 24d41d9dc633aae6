import NearClone.Proofs.Cluster.Advice
import NearClone.Proofs.Cluster.Components
import NearClone.Proofs.Survey.Scan
import NearClone.Survey.Project

/-!
# What reports hold

Every clone pair of a scan was compared: its fragments stand among those scanned, in this order, and
its similarity is what their comparison gave. One row keeps this (`compared_of_mem_scanRow`), and so
do all rows (`compared_of_mem_scanRows`). Where time does not run out the pairs that were compared
and are good enough are all there (`mem_accepted_scanRows`). A survey whose comparisons do not fail
reports on any candidates (`exists_report`); what holds of all its reports holds of those on files
(`Reports.file`) and on projects (`Reports.project`). All reports show the configuration of the
survey, whether or not comparisons fail (`config_of_project`).
-/

set_option autoImplicit false
set_option relaxedAutoImplicit false

namespace NearClone

variable {α : Type}

/-- The pairs of two scans are those of the one and of the other. -/
theorem Scan.mem_append {a b : Scan α} {p : ClonePair α} :
    p ∈ (a.append b).accepted ↔ p ∈ a.accepted ∨ p ∈ b.accepted :=
  List.mem_append

namespace Survey

section Outcomes

variable {property : Report α → Prop} {outcomes : List (FileEntry × Except String (Report α))}
  (h : ∀ outcome ∈ outcomes, ∃ report, outcome.2 = .ok report ∧ property report)

include h

/-- Where all outcomes are reports there is no failure. -/
theorem failuresOf_eq_nil : failuresOf outcomes = [] := by
  refine List.filterMap_eq_nil_iff.mpr fun outcome houtcome ↦ ?_
  obtain ⟨report, hreport, -⟩ := h outcome houtcome
  simp only [hreport]

/-- Where all outcomes are reports, there is one for each of them. -/
theorem length_reportsOf : (reportsOf outcomes).length = outcomes.length := by
  refine List.filterMap_length_eq_length.mpr fun outcome houtcome ↦ ?_
  obtain ⟨report, hreport, -⟩ := h outcome houtcome
  simp only [hreport, Except.toOption, Option.isSome_some]

/-- Where all outcomes are reports with the property, these are all the reports. -/
theorem of_mem_reportsOf : ∀ report ∈ reportsOf outcomes, property report := by
  intro report hreport
  obtain ⟨outcome, houtcome, hfound⟩ := List.mem_filterMap.mp hreport
  obtain ⟨found, heq, hproperty⟩ := h outcome houtcome
  simp only [heq] at hfound
  obtain rfl := Option.some.inj hfound
  exact hproperty

end Outcomes

/-! ### Candidates -/

/-- No two candidates are at one location. -/
theorem nodup_location_candidates (c : Config α) (given : List (Option Fragment)) :
    ((candidates c given).map (·.location)).Nodup := by
  refine ((Listing.sortBy_perm _ _).map _).nodup_iff.mpr ?_
  exact List.pairwise_map.mpr (Listing.pairwise_firstPer _ _)

/-! ### Pairs of a scan -/

variable [Scalar α] {s : Survey α} {w : Watch α} {f g : Fragment} {fs gs : List Fragment}
  {reads : Nat} {p : ClonePair α}

/-- A clone pair of fragments that stand in a list in this order: the filters admit it, comparing
the two gave its similarity, and the score is good enough. -/
structure Compared (s : Survey α) (fs : List Fragment) (p : ClonePair α) : Prop where
  sublist : [p.left, p.right].Sublist fs
  admits : Filter.admitsAll s.config s.filters p.left p.right = true
  compare_eq : s.compare p.left p.right = .ok p.similarity
  accepts : s.config.accepts p.left p.right p.similarity = true

namespace Compared

theorem mono (h : s.Compared fs p) (hsub : fs.Sublist gs) : s.Compared gs p :=
  ⟨h.sublist.trans hsub, h.admits, h.compare_eq, h.accepts⟩

theorem left_mem (h : s.Compared fs p) : p.left ∈ fs := h.sublist.subset List.mem_cons_self

theorem right_mem (h : s.Compared fs p) : p.right ∈ fs :=
  h.sublist.subset (List.mem_cons_of_mem _ List.mem_cons_self)

end Compared

/-- A judged pair is accepted as it is, or not at all. -/
theorem of_mem_judge {similarity : Similarity α} (h : p ∈ (s.judge f g similarity).accepted) :
    p = ⟨f, g, similarity⟩ ∧ s.config.accepts f g similarity = true := by
  rw [judge] at h
  by_cases haccepts : s.config.accepts f g similarity = true
  · rw [if_pos haccepts] at h
    exact ⟨List.mem_singleton.mp h, haccepts⟩
  · rw [if_neg haccepts] at h
    exact absurd h List.not_mem_nil

/-- The pairs of a row were compared. -/
theorem compared_of_mem_scanRow {row : Scan α} (hrow : (s.scanRow w f gs reads).1 = .ok row)
    (hp : p ∈ row.accepted) : s.Compared (f :: gs) p := by
  have hskip (g : Fragment) (rest : List Fragment) : (f :: rest).Sublist (f :: g :: rest) :=
    (List.sublist_cons_self g rest).cons_cons f
  refine scanRow_induction (motive := fun gs row ↦ ∀ p ∈ row.accepted, s.Compared (f :: gs) p)
    ?_ ?_ ?_ ?_ hrow p hp
  · intro p hp
    exact absurd hp List.not_mem_nil
  · intro g rest reads _ p hp
    exact absurd hp List.not_mem_nil
  · intro g rest row _ ih p hp
    exact (ih p hp).mono (hskip g rest)
  · intro g rest similarity row hadmits hcompare ih p hp
    rcases Scan.mem_append.mp hp with hjudged | hbehind
    · obtain ⟨rfl, haccepts⟩ := of_mem_judge hjudged
      exact ⟨((List.nil_sublist rest).cons_cons g).cons_cons f, hadmits, hcompare, haccepts⟩
    · exact (ih p hbehind).mono (hskip g rest)

/-- The pairs of a scan were compared. -/
theorem compared_of_mem_scanRows {scan : Scan α} (hscan : (s.scanRows w fs reads).1 = .ok scan)
    (hp : p ∈ scan.accepted) : s.Compared fs p := by
  refine scanRows_induction (motive := fun fs scan ↦ ∀ p ∈ scan.accepted, s.Compared fs p)
    ?_ ?_ hscan p hp
  · intro p hp
    exact absurd hp List.not_mem_nil
  · intro f rest reads row tail hrow ih p hp
    rcases Scan.mem_append.mp hp with hfirst | hbehind
    · exact compared_of_mem_scanRow hrow hfirst
    · exact (ih p hbehind).mono (List.sublist_cons_self f rest)

/-- Where time does not run out, a row holds every pair behind its fragment that is good enough. -/
theorem mem_accepted_scanRow (hw : ∀ reads, (w.check reads).1 = false) {row : Scan α}
    {similarity : Similarity α} (hrow : (s.scanRow w f gs reads).1 = .ok row) (hg : g ∈ gs)
    (hadmits : Filter.admitsAll s.config s.filters f g = true)
    (hcompare : s.compare f g = .ok similarity)
    (haccepts : s.config.accepts f g similarity = true) : ⟨f, g, similarity⟩ ∈ row.accepted := by
  refine scanRow_induction
    (motive := fun gs row ↦ g ∈ gs → ⟨f, g, similarity⟩ ∈ row.accepted) ?_ ?_ ?_ ?_ hrow hg
  · intro hg
    exact absurd hg List.not_mem_nil
  · intro g' rest reads hlate
    rw [hw reads] at hlate
    exact Bool.noConfusion hlate
  · intro g' rest row hskip ih hg
    rcases List.mem_cons.mp hg with rfl | hbehind
    · exact absurd hadmits hskip
    · exact ih hbehind
  · intro g' rest found row _ hfound ih hg
    rcases List.mem_cons.mp hg with rfl | hbehind
    · obtain rfl := Except.ok.inj (hcompare.symm.trans hfound)
      refine Scan.mem_append.mpr (Or.inl ?_)
      rw [judge, if_pos haccepts]
      exact List.mem_singleton_self _
    · exact Scan.mem_append.mpr (Or.inr (ih hbehind))

/-- Where time does not run out, a scan holds every pair that is good enough. -/
theorem mem_accepted_scanRows (hw : ∀ reads, (w.check reads).1 = false) {scan : Scan α}
    (hscan : (s.scanRows w fs reads).1 = .ok scan) (hp : s.Compared fs p) : p ∈ scan.accepted := by
  refine scanRows_induction
    (motive := fun fs scan ↦ s.Compared fs p → p ∈ scan.accepted) ?_ ?_ hscan hp
  · intro hp
    exact absurd hp.left_mem List.not_mem_nil
  · intro f rest reads row tail hrow ih hp
    cases hp.sublist with
    | cons _ hbehind =>
      exact Scan.mem_append.mpr (Or.inr (ih ⟨hbehind, hp.admits, hp.compare_eq, hp.accepts⟩))
    | cons_cons _ hright =>
      exact Scan.mem_append.mpr (Or.inl (mem_accepted_scanRow hw hrow
        (List.singleton_sublist.mp hright) hp.admits hp.compare_eq hp.accepts))

/-! ### Reports -/

/-- Every cluster of a report is one of its scan, with advice, and its pairs are pairs of the
scan. -/
theorem of_mem_clusters_reportOf {c : Config α} {source : String} {count : Nat} {scan : Scan α}
    {k : Cluster α} (hk : k ∈ (reportOf c source count scan).clusters) :
    ∃ bare ∈ Cluster.group c (reportOf c source count scan).duplicates, ∃ ordinal : Int,
      k = { bare with recommendation := some (bare.recommend c ordinal) } ∧
      bare.pairs ≠ [] ∧ ∀ p ∈ bare.pairs, p ∈ scan.accepted := by
  obtain ⟨bare, hbare, ordinal, hadvised⟩ := Cluster.exists_of_mem_annotate hk
  obtain ⟨tree, -, hne⟩ := Cluster.exists_tree_of_mem_group hbare
  refine ⟨bare, hbare, ordinal, hadvised, hne, fun p hp ↦ ?_⟩
  exact Listing.mem_sortBy.mp (Cluster.mem_of_mem_group hbare hp)

/-- Every clone pair of a report is in one of its clusters. -/
theorem exists_mem_clusters_reportOf {c : Config α} {source : String} {count : Nat} {scan : Scan α}
    (hp : p ∈ scan.accepted) : ∃ k ∈ (reportOf c source count scan).clusters, p ∈ k.pairs := by
  have hduplicate : p ∈ (reportOf c source count scan).duplicates := Listing.mem_sortBy.mpr hp
  obtain ⟨k, hk, hpair⟩ := Cluster.exists_mem_group c hduplicate
  obtain ⟨ordinal, hadvised⟩ := Cluster.exists_mem_annotate c hk
  exact ⟨_, hadvised, hpair⟩

/-- Where no comparison fails there is a report on any candidates. Its pairs were compared, and it
has all of them where time does not run out. -/
theorem exists_report (hs : s.NeverFails) (w : Watch α) (source : String)
    (given : List (Option Fragment)) (reads : Nat) :
    ∃ scan, (s.report w source given reads).1 =
        .ok (reportOf s.config source (candidates s.config given).length scan) ∧
      (∀ p ∈ scan.accepted, s.Compared (candidates s.config given) p) ∧
      (w.deadline = none → ∀ p, s.Compared (candidates s.config given) p → p ∈ scan.accepted) := by
  obtain ⟨scan, hscan⟩ := isOk_scanRows hs w (candidates s.config given) reads
  refine ⟨scan, congrArg (Except.map _) hscan, ?_, ?_⟩
  · intro p hp
    exact compared_of_mem_scanRows hscan hp
  · intro hdeadline p hp
    have hw (reads : Nat) : (w.check reads).1 = false :=
      congrArg Prod.fst (Watch.check_of_deadline_eq_none hdeadline reads)
    exact mem_accepted_scanRows hw hscan hp

/-- Where no comparison fails there is a report on any file, and its pairs were compared. -/
theorem exists_file (hs : s.NeverFails) (clock : Clock α) (deadline : Option (Quantity α))
    (source : String) (given : List (Option Fragment)) :
    ∃ scan, s.file clock deadline source given =
        .ok (reportOf s.config source (candidates s.config given).length scan) ∧
      ∀ p ∈ scan.accepted, s.Compared (candidates s.config given) p := by
  obtain ⟨scan, hreport, hcompared, -⟩ :=
    exists_report hs (s.watchOf clock deadline).1 source given (s.watchOf clock deadline).2
  rw [file_eq_report]
  exact ⟨scan, hreport, hcompared⟩

/-- Where no comparison fails and there is no time budget, there is a report on any file, and it has
all clone pairs. -/
theorem exists_file_of_timeBudget_eq_none (hs : s.NeverFails) (hbudget : s.config.timeBudget = none)
    (clock : Clock α) (source : String) (given : List (Option Fragment)) :
    ∃ report, s.file clock none source given = .ok report ∧
      ∀ p, p ∈ report.duplicates ↔ s.Compared (candidates s.config given) p := by
  obtain ⟨scan, hreport, hcompared, hall⟩ :=
    exists_report hs (s.watchOf clock none).1 source given (s.watchOf clock none).2
  rw [file_eq_report]
  refine ⟨_, hreport, fun p ↦ Listing.mem_sortBy.trans ?_⟩
  exact ⟨hcompared p, hall (deadline_watchOf hbudget clock) p⟩

/-- Every file has an outcome. -/
theorem length_scanFiles (s : Survey α) (w : Watch α) (files : List FileEntry) (reads : Nat) :
    (s.scanFiles w files reads).1.length = files.length := by
  induction files generalizing reads with
  | nil => rfl
  | cons entry rest ih => exact congrArg (· + 1) (ih _)

/-- On any candidates there is a report, and it has the property. -/
def Reports (s : Survey α) (property : Report α → Prop) : Prop :=
  ∀ (w : Watch α) (source : String) (given : List (Option Fragment)) (reads : Nat),
    ∃ report, (s.report w source given reads).1 = .ok report ∧ property report

/-- Where no comparison fails there is a report on any candidates. -/
theorem NeverFails.reports (hs : s.NeverFails) : s.Reports fun _ ↦ True := by
  intro w source given reads
  obtain ⟨scan, hreport, -⟩ := exists_report hs w source given reads
  exact ⟨_, hreport, trivial⟩

namespace Reports

variable {property : Report α → Prop}

/-- There is a report on any file, and it has the property. -/
theorem file (h : s.Reports property) (clock : Clock α) (deadline : Option (Quantity α))
    (source : String) (given : List (Option Fragment)) :
    ∃ report, s.file clock deadline source given = .ok report ∧ property report := by
  rw [file_eq_report]
  exact h (s.watchOf clock deadline).1 source given (s.watchOf clock deadline).2

/-- The outcomes for several files are reports that have the property. -/
theorem scanFiles (h : s.Reports property) (w : Watch α) (files : List FileEntry) (reads : Nat) :
    ∀ outcome ∈ (s.scanFiles w files reads).1,
      ∃ report, outcome.2 = .ok report ∧ property report := by
  induction files generalizing reads with
  | nil =>
    intro outcome houtcome
    exact absurd houtcome List.not_mem_nil
  | cons entry rest ih =>
    intro outcome houtcome
    rcases List.mem_cons.mp houtcome with rfl | hbehind
    · exact h w entry.1 entry.2 reads
    · exact ih _ outcome hbehind

/-- No file of a project fails. There is a report on every file, and one on all of them together
exactly where the scope is the project. All these reports have the property. -/
theorem project (h : s.Reports property) (clock : Clock α) (files : List FileEntry) :
    let found := s.project clock files
    found.failures = [] ∧
      found.reports.length = (entriesOf files).length ∧
      (found.whole.isSome = true ↔ s.config.effectiveScope = .project) ∧
      (∀ report ∈ found.reports, property report) ∧
      ∀ report ∈ found.whole, property report := by
  unfold Survey.project
  obtain ⟨w, reads⟩ := Watch.start clock s.config.timeBudget 0
  have houtcomes := h.scanFiles w (entriesOf files) reads
  have hlength := length_scanFiles s w (entriesOf files) reads
  cases hscan : s.scanFiles w (entriesOf files) reads with
  | mk outcomes reads =>
    rw [hscan] at houtcomes hlength
    have hfailures := failuresOf_eq_nil houtcomes
    have hcount := (length_reportsOf houtcomes).trans hlength
    have hreports := of_mem_reportsOf houtcomes
    obtain ⟨whole, hwhole, hproperty⟩ := h w projectName (remaining outcomes) reads
    simp only [hscan, hwhole]
    by_cases hscope : s.config.effectiveScope = .project
    · rw [if_pos hscope]
      refine ⟨hfailures, hcount, iff_of_true rfl hscope, hreports, fun report hreport ↦ ?_⟩
      obtain rfl := Option.some.inj hreport
      exact hproperty
    · rw [if_neg hscope]
      exact ⟨hfailures, hcount, iff_of_false Bool.false_ne_true hscope, hreports,
        fun report hreport ↦ absurd hreport (Option.some_ne_none _).symm⟩

end Reports

/-! ### The configuration in a report -/

/-- A report shows the configuration of the survey. -/
theorem config_of_report {s : Survey α} {w : Watch α} {source : String}
    {given : List (Option Fragment)} {reads : Nat} {report : Report α}
    (h : (s.report w source given reads).1 = .ok report) : report.config = s.config := by
  unfold Survey.report at h
  cases hscan : (s.scanRows w (candidates s.config given) reads).1 with
  | error message => simp [hscan, Except.map] at h
  | ok scan =>
    simp only [hscan, Except.map, Except.ok.injEq] at h
    rw [← h, reportOf]

/-- The report on a file shows the configuration of the survey. -/
theorem config_of_file {s : Survey α} {clock : Clock α} {deadline : Option (Quantity α)}
    {source : String} {given : List (Option Fragment)} {report : Report α}
    (h : s.file clock deadline source given = .ok report) : report.config = s.config := by
  rw [file_eq_report] at h
  exact config_of_report h

/-- The reports on several files show the configuration of the survey. -/
theorem config_of_mem_scanFiles (s : Survey α) (w : Watch α) (files : List FileEntry)
    (reads : Nat) : ∀ report ∈ reportsOf (s.scanFiles w files reads).1,
      report.config = s.config := by
  induction files generalizing reads with
  | nil => exact fun report hreport ↦ absurd hreport List.not_mem_nil
  | cons entry rest ih =>
    intro report hreport
    rw [Survey.scanFiles, reportsOf, List.filterMap_cons] at hreport
    cases hfirst : (s.report w entry.1 entry.2 reads).1 with
    | error message =>
      simp only [hfirst, Except.toOption] at hreport
      exact ih _ report hreport
    | ok first =>
      simp only [hfirst, Except.toOption, List.mem_cons] at hreport
      rcases hreport with rfl | hbehind
      · exact config_of_report hfirst
      · exact ih _ report hbehind

/-- All reports on a project show the configuration of the survey. -/
theorem config_of_project (s : Survey α) (clock : Clock α) (files : List FileEntry) :
    (∀ report ∈ (s.project clock files).reports, report.config = s.config) ∧
      ∀ report ∈ (s.project clock files).whole, report.config = s.config := by
  unfold Survey.project
  obtain ⟨w, reads⟩ := Watch.start clock s.config.timeBudget 0
  have hfiles := config_of_mem_scanFiles s w (entriesOf files) reads
  cases hscan : s.scanFiles w (entriesOf files) reads with
  | mk outcomes reads =>
    rw [hscan] at hfiles
    -- There is no report on all files if the scope is narrower, or if this report fails.
    have hnone : ∀ report ∈ (none : Option (Report α)), report.config = s.config :=
      fun report h ↦ absurd h (Option.not_mem_none report)
    cases hwhole : (s.report w projectName (remaining outcomes) reads).1 with
    | error message =>
      simp only [hscan, hwhole]
      split <;> exact ⟨hfiles, hnone⟩
    | ok whole =>
      simp only [hscan, hwhole]
      split
      · exact ⟨hfiles, fun report h ↦ Option.some.inj h ▸ config_of_report hwhole⟩
      · exact ⟨hfiles, hnone⟩

end Survey

end NearClone
