import NearClone.Proofs.Cluster.Containment
import NearClone.Proofs.Survey.Isolation
import NearClone.Proofs.Survey.Widening

/-!
# Where clones are put

A report of a project is about fragments that were given (`Survey.reportsOn_of_mem_all`). Its advice
on clones that can be merged goes by their homes: one method for one home, a utility class for
several (`Survey.advisesByHome_reportOf`). The home of a fragment is the name of its class, or its
file where no class is named, and two files may each have a class of one name. So a method is
proposed within one class of one file exactly where members with one home share their class
(`Report.AdvisesByHome.keepsToClasses_iff`), as they do whenever classes are named apart
(`Survey.project_advisesByHome`).
-/

set_option autoImplicit false
set_option relaxedAutoImplicit false

namespace NearClone

/-- Two fragments stand in one class of one file. -/
def Fragment.SharesClass (f g : Fragment) : Prop := f.file = g.file ∧ f.owner = g.owner

variable {α : Type}

namespace Cluster

/-- All pairs can be merged. -/
def IsMergeable (k : Cluster α) : Prop := ∀ p ∈ k.pairs, p.similarity.canRefactor = true

/-- All members have one home. -/
def InOneHome (k : Cluster α) : Prop := ∀ f ∈ k.members, ∀ g ∈ k.members, f.home = g.home

/-- All members stand in one class of one file. -/
def InOneClass (k : Cluster α) : Prop := ∀ f ∈ k.members, ∀ g ∈ k.members, f.SharesClass g

/-- A strategy for a cluster keeps to classes: a method is for members of one class of one file
only, and where members that can be merged are of several, the strategy is a utility class. -/
structure KeepsToClass (k : Cluster α) (strategy : Strategy) : Prop where
  inOneClass : strategy = .extractMethod → k.InOneClass
  utilityClass : k.IsMergeable → ¬ k.InOneClass → strategy = .utilityClass

/-- A strategy for a cluster goes by homes: among members that can be merged, a method is for those
of one home and a utility class for those of several. -/
structure GoesByHome (k : Cluster α) (strategy : Strategy) : Prop where
  extractMethod_iff : strategy = .extractMethod ↔ k.IsMergeable ∧ k.InOneHome
  utilityClass_iff : strategy = .utilityClass ↔ k.IsMergeable ∧ ¬ k.InOneHome

variable {k : Cluster α} {strategy : Strategy}

/-- There is one home exactly if all members have it. -/
theorem length_homes_eq_one_iff (h : k.pairs ≠ []) : k.homes.length = 1 ↔ k.InOneHome := by
  have hne : k.members.map (·.home) ≠ [] := by
    rw [ne_eq, List.map_eq_nil_iff]
    exact members_ne_nil h
  rw [homes, Listing.length_distinct_eq_one_iff hne, List.forall_mem_map]
  exact forall₂_congr fun f _ ↦ List.forall_mem_map

/-- The strategy for a cluster with pairs goes by homes. -/
theorem goesByHome_strategy (h : k.pairs ≠ []) : k.GoesByHome k.strategy := by
  refine ⟨?_, ?_⟩
  · rw [strategy_eq_extractMethod_iff, isSafe_iff h, length_homes_eq_one_iff h, IsMergeable]
  · rw [strategy_eq_utilityClass_iff, isSafe_iff h, ne_eq, length_homes_eq_one_iff h, IsMergeable]

/-- A strategy that goes by homes keeps to classes unless members that can be merged have one home
in different classes. -/
theorem GoesByHome.keepsToClass_iff (h : k.GoesByHome strategy) :
    k.KeepsToClass strategy ↔ (k.IsMergeable → k.InOneHome → k.InOneClass) := by
  constructor
  · intro hkeeps hmerge hhome
    exact hkeeps.inOneClass (h.extractMethod_iff.mpr ⟨hmerge, hhome⟩)
  · intro hclass
    refine ⟨fun hextract ↦ ?_, fun hmerge hapart ↦ ?_⟩
    · obtain ⟨hmerge, hhome⟩ := h.extractMethod_iff.mp hextract
      exact hclass hmerge hhome
    · exact h.utilityClass_iff.mpr ⟨hmerge, fun hhome ↦ hapart (hclass hmerge hhome)⟩

end Cluster

/-- Every cluster of a report has advice, and the strategy goes by homes. Where the scope is not the
project, all members of a cluster are in one file. -/
def Report.AdvisesByHome (r : Report α) : Prop :=
  ∀ k ∈ r.clusters, ∃ advice, k.recommendation = some advice ∧ k.GoesByHome advice.strategy ∧
    (r.config.effectiveScope ≠ .project → ∀ f ∈ k.members, ∀ g ∈ k.members, f.file = g.file)

/-- The advice in a report keeps to classes. -/
def Report.KeepsToClasses (r : Report α) : Prop :=
  ∀ k ∈ r.clusters, ∀ advice ∈ k.recommendation, k.KeepsToClass advice.strategy

/-- Where advice goes by homes, it keeps to classes exactly if no members that can be merged have
one home in different classes. -/
theorem Report.AdvisesByHome.keepsToClasses_iff {r : Report α} (h : r.AdvisesByHome) :
    r.KeepsToClasses ↔ ∀ k ∈ r.clusters, k.IsMergeable → k.InOneHome → k.InOneClass := by
  refine forall₂_congr fun k hk ↦ ?_
  obtain ⟨advice, hadvice, hhome, -⟩ := h k hk
  rw [← hhome.keepsToClass_iff, hadvice]
  constructor
  · exact fun hkeeps ↦ hkeeps advice rfl
  · rintro hkeeps _ ⟨rfl⟩
    exact hkeeps

/-- All reports of a project, that on all files together included. -/
def ProjectReport.all (p : ProjectReport α) : List (Report α) := p.reports ++ p.whole.toList

namespace Survey

variable [Scalar α] {s : Survey α} {c : Config α} {files : List FileEntry} {f : Fragment}

/-! ### Where reports come from -/

/-- A fragment is among those of some files. -/
def Submitted (files : List FileEntry) (f : Fragment) : Prop := ∃ entry ∈ files, some f ∈ entry.2

/-- Classes are named apart: two of the fragments with one home are in one class of one file. -/
def NamesApart (files : List FileEntry) : Prop :=
  ∀ f g : Fragment, Submitted files f → Submitted files g → f.home = g.home → f.SharesClass g

/-- The outcome for one of several files is that of a report on its fragments. -/
theorem of_mem_scanFiles {w : Watch α} {reads : ℕ} {outcome : FileEntry × Except String (Report α)}
    (h : outcome ∈ (s.scanFiles w files reads).1) :
    outcome.1 ∈ files ∧ ∃ reads, outcome.2 = (s.report w outcome.1.1 outcome.1.2 reads).1 := by
  induction files generalizing reads with
  | nil => exact absurd h List.not_mem_nil
  | cons entry rest ih =>
    rcases List.mem_cons.mp h with rfl | hbehind
    · exact ⟨List.mem_cons_self, reads, rfl⟩
    · obtain ⟨hentry, hreport⟩ := ih hbehind
      exact ⟨List.mem_cons_of_mem entry hentry, hreport⟩

/-- The report is one on fragments of the files. -/
def ReportsOn (s : Survey α) (files : List FileEntry) (report : Report α) : Prop :=
  ∃ (w : Watch α) (source : String) (given : List (Option Fragment)) (reads : ℕ),
    (s.report w source given reads).1 = .ok report ∧ ∀ f, some f ∈ given → Submitted files f

/-- All reports of a project are on fragments of its files. -/
theorem reportsOn_of_mem_all (s : Survey α) (clock : Clock α) (files : List FileEntry) :
    ∀ report ∈ (s.project clock files).all, s.ReportsOn files report := by
  have hentry {e : FileEntry} (he : e ∈ entriesOf files) {f : Fragment} (hf : some f ∈ e.2) :
      Submitted files f := ⟨e, mem_of_mem_entriesOf he, hf⟩
  unfold project
  obtain ⟨w, reads⟩ := Watch.start clock s.config.timeBudget 0
  have houtcomes {outcome : FileEntry × Except String (Report α)}
      (h : outcome ∈ (s.scanFiles w (entriesOf files) reads).1) := of_mem_scanFiles h
  cases hscan : s.scanFiles w (entriesOf files) reads with
  | mk outcomes reads =>
    rw [hscan] at houtcomes
    have hreports : ∀ report ∈ reportsOf outcomes, s.ReportsOn files report := by
      intro report hreport
      obtain ⟨outcome, houtcome, hok⟩ := List.mem_filterMap.mp hreport
      obtain ⟨he, reads, heq⟩ := houtcomes houtcome
      rw [toOption_eq_some_iff, heq] at hok
      exact ⟨w, outcome.1.1, outcome.1.2, reads, hok, fun f ↦ hentry he⟩
    have hwhole {report : Report α}
        (h : (s.report w projectName (remaining outcomes) reads).1 = .ok report) :
        s.ReportsOn files report := by
      refine ⟨w, projectName, remaining outcomes, reads, h, fun f hf ↦ ?_⟩
      obtain ⟨⟨e, outcome⟩, houtcome, hmem⟩ := List.mem_flatMap.mp hf
      cases outcome with
      | ok _ => exact hentry (houtcomes houtcome).1 hmem
      | error _ => exact absurd hmem List.not_mem_nil
    simp only [hscan]
    by_cases hscope : s.config.effectiveScope = .project
    · rw [if_pos hscope]
      cases hpass : (s.report w projectName (remaining outcomes) reads).1 with
      | ok whole =>
        exact List.forall_mem_append.mpr ⟨hreports, List.forall_mem_singleton.mpr (hwhole hpass)⟩
      | error _ => exact List.forall_mem_append.mpr ⟨hreports, List.forall_mem_nil _⟩
    · rw [if_neg hscope]
      exact List.forall_mem_append.mpr ⟨hreports, List.forall_mem_nil _⟩

/-- A member of a cluster is one of the fragments that were compared. -/
theorem submitted_of_mem_members {source : String} {count : ℕ} {scan : Scan α}
    {given : List (Option Fragment)} {k : Cluster α}
    (hcompared : ∀ p ∈ scan.accepted, s.Compared (candidates s.config given) p)
    (hk : k ∈ (reportOf s.config source count scan).clusters) (hf : f ∈ k.members) :
    some f ∈ given := by
  obtain ⟨bare, -, ordinal, rfl, -, hpairs⟩ := of_mem_clusters_reportOf hk
  obtain ⟨p, hp, hend⟩ := Cluster.exists_pair_of_mem_members hf
  have hcandidate : f ∈ candidates s.config given := by
    rcases List.mem_pair.mp hend with rfl | rfl
    · exact (hcompared p (hpairs p hp)).left_mem
    · exact (hcompared p (hpairs p hp)).right_mem
  exact (mem_usable.mp (mem_usable_of_mem_candidates hcandidate)).1

/-! ### Advice by homes -/

/-- Advice goes by homes. -/
theorem advisesByHome_reportOf {scan : Scan α} {given : List (Option Fragment)}
    (hcompared : ∀ p ∈ scan.accepted, (ofConfig c).Compared (candidates c given) p)
    (source : String) (count : ℕ) : (reportOf c source count scan).AdvisesByHome := by
  intro k hk
  obtain ⟨bare, hbare, ordinal, rfl, hne, hpairs⟩ := of_mem_clusters_reportOf hk
  have hhome := Cluster.goesByHome_strategy hne
  refine ⟨_, rfl, ⟨hhome.extractMethod_iff, hhome.utilityClass_iff⟩, fun hscope f hf g hg ↦ ?_⟩
  have hends : ∀ p ∈ bare.pairs, p.left.file = p.right.file := by
    intro p hp
    have htest : Filter.scope ∈ Filter.standard := by decide
    have hadmits := List.all_eq_true.mp (hcompared p (hpairs p hp)).admits .scope htest
    exact Filter.file_eq_of_withinScope hscope hadmits
  exact Cluster.label_eq_of_mem_members
    (fun e _ e' _ hlocation ↦ congrArg Location.file hlocation) hbare hends hf hg

/-- Advice goes by homes in every report on fragments of some files, and it keeps to classes where
these are named apart. -/
theorem ReportsOn.advisesByHome {report : Report α} (h : (ofConfig c).ReportsOn files report) :
    report.AdvisesByHome ∧ (NamesApart files → report.KeepsToClasses) := by
  obtain ⟨w, source, given, reads, hreport, hgiven⟩ := h
  obtain ⟨scan, hscan, hcompared, -⟩ :=
    exists_report (neverFails_ofConfig c) w source given reads
  obtain rfl := Except.ok.inj (hscan.symm.trans hreport)
  have hadvises := advisesByHome_reportOf hcompared source (candidates c given).length
  refine ⟨hadvises, fun hapart ↦ hadvises.keepsToClasses_iff.mpr ?_⟩
  intro k hk _ hhome f hf g hg
  have hmember {e : Fragment} (he : e ∈ k.members) : Submitted files e :=
    hgiven e (submitted_of_mem_members hcompared hk he)
  exact hapart f g (hmember hf) (hmember hg) (hhome f hf g hg)

/-- The clone pair of two fragments. -/
def clonePair (c : Config α) (f g : Fragment) : ClonePair α :=
  ⟨f, g, Similarity.compare c.weights f g⟩

/-- Where there are just two candidates, no other pair is compared. -/
theorem eq_of_compared_pair {f g : Fragment} {p : ClonePair α}
    (h : (ofConfig c).Compared [f, g] p) : p = clonePair c f g := by
  have hends : [p.left, p.right] = [f, g] := h.sublist.eq_of_length rfl
  simp only [List.cons.injEq, and_true] at hends
  obtain ⟨rfl, rfl⟩ := hends
  exact congrArg (ClonePair.mk p.left p.right) (Except.ok.inj h.compare_eq).symm

/-- Two fragments that are all there is in a project, and are a clone pair, make a cluster of its
report. -/
theorem exists_cluster_of_candidates_eq_pair (files : List FileEntry) {f g : Fragment}
    (hscope : c.effectiveScope = .project) (hbudget : c.timeBudget = none) (clock : Clock α)
    (hcandidates : candidates c ((entriesOf files).flatMap Prod.snd) = [f, g])
    (hadmits : Filter.admitsAll c Filter.standard f g = true)
    (haccepts : c.accepts f g (clonePair c f g).similarity = true) :
    ∃ report ∈ ((ofConfig c).project clock files).all, ∃ k ∈ report.clusters,
      clonePair c f g ∈ k.pairs ∧ ∀ p ∈ k.pairs, p = clonePair c f g := by
  obtain ⟨-, whole, -, hwhole, -, -, reads, hreport⟩ :=
    exists_found (s := ofConfig c) hscope hbudget
      ((neverFails_ofConfig c).failures_project clock files)
  obtain ⟨scan, hscan, hcompared, hall⟩ := exists_report (neverFails_ofConfig c)
    ⟨clock, none⟩ projectName ((entriesOf files).flatMap Prod.snd) reads
  obtain rfl := Except.ok.inj (hscan.symm.trans hreport)
  have hpair : (ofConfig c).Compared (candidates c ((entriesOf files).flatMap Prod.snd))
      (clonePair c f g) := ⟨by rw [hcandidates]; rfl, hadmits, rfl, haccepts⟩
  let count := (candidates c ((entriesOf files).flatMap Prod.snd)).length
  have hcluster : ∃ k ∈ (reportOf c projectName count scan).clusters,
      clonePair c f g ∈ k.pairs := exists_mem_clusters_reportOf (hall rfl _ hpair)
  obtain ⟨k, hk, hmem⟩ := hcluster
  refine ⟨_, List.mem_append_right _ (Option.mem_toList.mpr hwhole), k, hk, hmem, fun p hp ↦ ?_⟩
  obtain ⟨bare, -, ordinal, rfl, -, haccepted⟩ := of_mem_clusters_reportOf hk
  exact eq_of_compared_pair (hcandidates ▸ hcompared p (haccepted p hp))

/-- Advice in a project goes by homes. No file fails, there is a report on each of them, and one on
all together exactly where the scope is the project. Every cluster of every report has advice: where
all its pairs can be merged, a method if all members have one home and a utility class otherwise.
Members are in one file unless the scope is the project. So a method is proposed for members of one
class of one file only, and a utility class for all others that can be merged, exactly if members
with one home are always in one class; as they are where classes are named apart. -/
theorem project_advisesByHome (c : Config α) (clock : Clock α) (files : List FileEntry) :
    let found := (ofConfig c).project clock files
    found.failures = [] ∧ found.reports.length = (entriesOf files).length ∧
      (found.whole.isSome = true ↔ c.effectiveScope = .project) ∧
      ∀ report ∈ found.all, report.AdvisesByHome ∧
        (report.KeepsToClasses ↔
          ∀ k ∈ report.clusters, k.IsMergeable → k.InOneHome → k.InOneClass) ∧
        (NamesApart files → report.KeepsToClasses) := by
  intro found
  obtain ⟨hfailures, hlength, hscope, -⟩ := (neverFails_ofConfig c).reports.project clock files
  refine ⟨hfailures, hlength, hscope, fun report hreport ↦ ?_⟩
  obtain ⟨hadvises, hkeeps⟩ :=
    (reportsOn_of_mem_all (ofConfig c) clock files report hreport).advisesByHome
  exact ⟨hadvises, hadvises.keepsToClasses_iff, hkeeps⟩

/-- Two files each have a class, and the names of the classes differ. The advice on a call in either
is to make a utility class of them. -/
theorem project_advisesByHome_apart :
    let c : Config ℚ := { Config.default with minLines := 1, crossFile := true }
    let call : String → String → Fragment := fun file owner ↦
      { statements := [{ shape := "call", kind := "expression" }], owner
        location := ⟨file, ⟨1, 1, 1, 1⟩⟩ }
    let files : List FileEntry :=
      [("a", [some (call "a" "Reader")]), ("b", [some (call "b" "Writer")])]
    NamesApart files ∧
      ∃ report ∈ ((ofConfig c).project Clock.stopped files).all, report.KeepsToClasses ∧
        ∃ k ∈ report.clusters, ∃ advice ∈ k.recommendation, advice.strategy = .utilityClass := by
  intro c call files
  have hentries : entriesOf files = files := entriesOf_eq_self (by decide +kernel)
  have hapart : NamesApart files := by
    have hgiven {e : Fragment} (he : Submitted files e) :
        e = call "a" "Reader" ∨ e = call "b" "Writer" := by
      simpa [Submitted, files] using he
    intro f g hf hg hhome
    rcases hgiven hf with rfl | rfl <;> rcases hgiven hg with rfl | rfl
    · exact ⟨rfl, rfl⟩
    · exact absurd hhome (by decide)
    · exact absurd hhome (by decide)
    · exact ⟨rfl, rfl⟩
  obtain ⟨report, hreport, k, hk, hmem, honly⟩ :=
    exists_cluster_of_candidates_eq_pair (c := c) files (f := call "a" "Reader")
      (g := call "b" "Writer") rfl rfl Clock.stopped
      (by rw [hentries]; exact Listing.sortBy_of_pairwise (by decide +kernel))
      (by decide +kernel) (by decide +kernel)
  obtain ⟨-, -, -, hall⟩ := project_advisesByHome c Clock.stopped files
  obtain ⟨hadvises, -, hkeeps⟩ := hall report hreport
  obtain ⟨advice, hadvice, hhome, -⟩ := hadvises k hk
  refine ⟨hapart, report, hreport, hkeeps hapart, k, hk, advice, hadvice,
    hhome.utilityClass_iff.mpr ⟨fun p hp ↦ ?_, fun hone ↦ ?_⟩⟩
  · rw [honly p hp]
    decide +kernel
  · have hmember {e : Fragment} := Cluster.mem_members_of_forall_eq (f := e) hmem honly (by decide)
    have hhomes := hone _ (hmember.mpr List.mem_cons_self) _
      (hmember.mpr (List.mem_cons_of_mem _ List.mem_cons_self))
    exact absurd hhomes (by decide)

/-- Two files each have a class of the same name, with a call of the same shape. The advice on the
project is to make one method of them. -/
theorem exists_not_keepsToClasses :
    let c : Config ℚ := { Config.default with minLines := 1, crossFile := true }
    let call : String → Fragment := fun file ↦
      { statements := [{ shape := "call", kind := "expression" }], owner := "Util"
        location := ⟨file, ⟨1, 1, 1, 1⟩⟩ }
    let files : List FileEntry := [("a", [some (call "a")]), ("b", [some (call "b")])]
    ∃ report ∈ ((ofConfig c).project Clock.stopped files).all, ∃ k ∈ report.clusters, ∃ advice,
      k.recommendation = some advice ∧ advice.strategy = .extractMethod ∧
        ∃ f ∈ k.members, ∃ g ∈ k.members, f.file ≠ g.file := by
  intro c call files
  have hentries : entriesOf files = files := entriesOf_eq_self (by decide +kernel)
  obtain ⟨report, hreport, k, hk, hmem, honly⟩ :=
    exists_cluster_of_candidates_eq_pair (c := c) files (f := call "a") (g := call "b")
      rfl rfl Clock.stopped (by rw [hentries]; exact Listing.sortBy_of_pairwise (by decide +kernel))
      (by decide +kernel) (by decide +kernel)
  obtain ⟨advice, hadvice, hhome, -⟩ :=
    (reportsOn_of_mem_all (ofConfig c) Clock.stopped files report hreport).advisesByHome.1 k hk
  have hmember {e : Fragment} := Cluster.mem_members_of_forall_eq (f := e) hmem honly (by decide)
  refine ⟨report, hreport, k, hk, advice, hadvice,
    hhome.extractMethod_iff.mpr ⟨fun p hp ↦ ?_, fun f hf g hg ↦ ?_⟩, call "a",
    hmember.mpr List.mem_cons_self, call "b",
    hmember.mpr (List.mem_cons_of_mem _ List.mem_cons_self), by decide⟩
  · rw [honly p hp]
    decide +kernel
  · rcases List.mem_pair.mp (hmember.mp hf) with rfl | rfl <;>
      rcases List.mem_pair.mp (hmember.mp hg) with rfl | rfl <;> rfl

end Survey

end NearClone
