import NearClone.Encoding.Report
import NearClone.Proofs.Cluster.Components
import NearClone.Proofs.Listing.Least
import NearClone.Proofs.Similarity.Hints
import NearClone.Proofs.Survey.Scan
import Mathlib.Data.List.Forall2

/-!
# Surveys and the writing of declared types

A survey hands the declared types of fragments on and reads them only where it compares. So where a
comparison overlooks how they are written (`Overlooks`), as that of a configuration does
(`overlooks_ofConfig`), a survey of fragments with declared types that are written in another way is
the same survey, with the fragments that it shows written in that way. This holds of a row of a scan
(`scanRow_redeclare`) and of all rows (`scanRows_redeclare`), of the clusters (`group_redeclare`)
and the advice on them (`annotate_redeclare`), and so of reports on files (`file_redeclare`) and on
projects (`project_redeclare`).

Documents do not show declared types (`Report.document_redeclare`,
`ProjectReport.document_redeclare`). So for candidates that differ in nothing but the way in which
their declared types are written, a survey makes one document of a file (`document_file_congr`) and
of a project (`document_project_congr`).
-/

set_option autoImplicit false
set_option relaxedAutoImplicit false

namespace NearClone

variable {α : Type}

/-! ### Declared types in pairs, clusters and reports -/

section Redeclared

variable (write : Hints → Hints)

/-- A pair with declared types written in another way. -/
def ClonePair.redeclare (p : ClonePair α) : ClonePair α :=
  { p with left := p.left.redeclare write, right := p.right.redeclare write }

/-- A cluster with declared types written in another way. -/
def Cluster.redeclare (k : Cluster α) : Cluster α :=
  { k with
    primary := k.primary.redeclare write
    pairs := k.pairs.map (·.redeclare write) }

/-- A scan with declared types written in another way. -/
def Scan.redeclare (scan : Scan α) : Scan α :=
  { scan with accepted := scan.accepted.map (·.redeclare write) }

/-- A report with declared types written in another way. -/
def Report.redeclare (r : Report α) : Report α :=
  { r with
    duplicates := r.duplicates.map (·.redeclare write)
    clusters := r.clusters.map (·.redeclare write) }

/-- A report on a project with declared types written in another way. -/
def ProjectReport.redeclare (p : ProjectReport α) : ProjectReport α :=
  { p with
    reports := p.reports.map (·.redeclare write)
    whole := p.whole.map (·.redeclare write) }

/-- Candidates with declared types written in another way. -/
def Survey.redeclare (given : List (Option Fragment)) : List (Option Fragment) :=
  given.map (Option.map (·.redeclare write))

/-- The outcome for a file with declared types written in another way. -/
def Survey.redeclareOutcome (x : FileEntry × Except String (Report α)) :
    FileEntry × Except String (Report α) :=
  (x.1.map id (redeclare write), x.2.map (·.redeclare write))

end Redeclared

variable {write : Hints → Hints}

/-! ### Clusters -/

namespace Cluster

open Listing

/-- The fragments of pairs stay the same. -/
theorem fragmentsOf_redeclare (pairs : List (ClonePair α)) :
    fragmentsOf (pairs.map (·.redeclare write)) =
      (fragmentsOf pairs).map (·.redeclare write) := by
  have hends : (pairs.map (·.redeclare write)).flatMap ClonePair.ends =
      (pairs.flatMap ClonePair.ends).map (·.redeclare write) := by
    rw [List.flatMap_map, List.map_flatMap]
    rfl
  rw [fragmentsOf, hends, firstPer_map]
  rfl

/-- A fragment has the same number among nodes. -/
theorem nodeOf_redeclare (nodes : List Fragment) (f : Fragment) :
    nodeOf (nodes.map (·.redeclare write)) (f.redeclare write) = nodeOf nodes f := by
  rw [nodeOf, List.findIdx_map]
  rfl

/-- A fragment is in the same tree. -/
theorem treeOf_redeclare (pairs : List (ClonePair α)) (f : Fragment) :
    treeOf (pairs.map (·.redeclare write)) (f.redeclare write) = treeOf pairs f := by
  have hforest : forestOf (fragmentsOf (pairs.map (·.redeclare write)))
      (pairs.map (·.redeclare write)) = forestOf (fragmentsOf pairs) pairs := by
    rw [forestOf, List.foldl_map, fragmentsOf_redeclare, List.length_map]
    simp only [ClonePair.redeclare, nodeOf_redeclare]
    rfl
  rw [treeOf, hforest, fragmentsOf_redeclare, nodeOf_redeclare, treeOf]

/-- The cluster of a tree stays the same. -/
theorem ofTree?_redeclare (c : Config α) (nodes : List Fragment) (pairs : List (ClonePair α)) :
    ofTree? c (nodes.map (·.redeclare write)) (pairs.map (·.redeclare write)) =
      (ofTree? c nodes pairs).map (·.redeclare write) := by
  rw [ofTree?, ofTree?, least?_map, List.length_map, Option.map_map, Option.map_map]
  rfl

/-- The rank of a cluster stays the same. -/
theorem compareRank_redeclare (a b : Cluster α) :
    compareRank (a.redeclare write) (b.redeclare write) = compareRank a b := by
  simp only [compareRank, compareLex, compareOn, redeclare, List.length_map]
  rfl

/-- The clusters stay the same, and so does their order. -/
theorem group_redeclare (c : Config α) (pairs : List (ClonePair α)) :
    group c (pairs.map (·.redeclare write)) = (group c pairs).map (·.redeclare write) := by
  have hnodes (tree : ℕ) : nodesIn (pairs.map (·.redeclare write)) tree =
      (nodesIn pairs tree).map (·.redeclare write) := by
    rw [nodesIn, fragmentsOf_redeclare, List.filter_map]
    simp only [Function.comp_def, treeOf_redeclare]
    rfl
  have hkey : (fun p : ClonePair α ↦
      treeOf (pairs.map (·.redeclare write)) (p.redeclare write).left) =
        fun p ↦ treeOf pairs p.left :=
    funext fun p ↦ treeOf_redeclare pairs p.left
  rw [group_eq_sortBy, groupsBy_map, hkey, List.filterMap_map]
  simp only [Function.comp_def, hnodes, ofTree?_redeclare]
  rw [← List.map_filterMap, ← map_sortBy, group_eq_sortBy]
  simp only [compareRank_redeclare]

/-! ### Advice -/

/-- The members stay the same. -/
theorem members_redeclare (k : Cluster α) :
    (k.redeclare write).members = k.members.map (·.redeclare write) := by
  rw [members, redeclare, fragmentsOf_redeclare, ← map_sortBy]
  rfl

/-- The number of members stays the same. -/
theorem occurrences_redeclare (k : Cluster α) :
    (k.redeclare write).occurrences = k.occurrences := by
  rw [occurrences, members_redeclare, List.length_map, occurrences]

/-- The classes or files of the members stay the same. -/
theorem homes_redeclare (k : Cluster α) : (k.redeclare write).homes = k.homes := by
  rw [homes, members_redeclare, List.map_map]
  rfl

/-- How the members could be consolidated stays the same. -/
theorem strategy_redeclare (k : Cluster α) : (k.redeclare write).strategy = k.strategy := by
  have hsafe : (k.redeclare write).isSafe = k.isSafe := by
    rw [isSafe, redeclare, List.isEmpty_map, List.all_map]
    rfl
  rw [strategy, hsafe, homes_redeclare, strategy]

/-- The reasons for it stay the same. -/
theorem strategyReasons_redeclare (k : Cluster α) :
    (k.redeclare write).strategyReasons = k.strategyReasons := by
  have hdoubts : (k.redeclare write).doubts = k.doubts := by
    rw [doubts, redeclare, List.any_map, List.any_map]
    rfl
  rw [strategyReasons, strategy_redeclare, homes_redeclare, hdoubts, strategyReasons]

/-- The suggested name stays the same. -/
theorem suggestName_redeclare (k : Cluster α) (ordinal : Int) :
    (k.redeclare write).suggestName ordinal = k.suggestName ordinal := by
  have hnames : (k.redeclare write).members.mapM (·.method) = k.members.mapM (·.method) := by
    rw [members_redeclare, List.mapM_map]
    rfl
  rw [suggestName, hnames]
  rfl

variable [Scalar α]

/-- The mean score stays the same. -/
theorem averageSimilarity_redeclare (k : Cluster α) :
    (k.redeclare write).averageSimilarity = k.averageSimilarity := by
  rw [averageSimilarity, redeclare, List.map_map]
  rfl

/-- The advice on a cluster stays the same. -/
theorem recommend_redeclare (config : Config α) (k : Cluster α) (ordinal : Int) :
    (k.redeclare write).recommend config ordinal = k.recommend config ordinal := by
  have hmismatch : (k.redeclare write).hasMismatch = k.hasMismatch := by
    rw [hasMismatch, redeclare, List.any_map]
    rfl
  rw [recommend, averageSimilarity_redeclare, strategy_redeclare, strategyReasons_redeclare,
    suggestName_redeclare, hmismatch, recommend]

/-- Clusters stay the same also with advice. -/
theorem annotate_redeclare (config : Config α) (clusters : List (Cluster α)) :
    annotate config (clusters.map (·.redeclare write)) =
      (annotate config clusters).map (·.redeclare write) := by
  rw [annotate, annotate, List.zipIdx_map, List.map_map, List.map_map]
  refine List.map_congr_left fun entry _ ↦ ?_
  exact congrArg (fun advice ↦ { entry.1.redeclare write with recommendation := some advice })
    (recommend_redeclare config entry.1 _)

end Cluster

/-! ### What a survey makes of candidates and outcomes -/

/-- Two scans one after the other stay the same. -/
theorem Scan.redeclare_append (a b : Scan α) :
    (a.append b).redeclare write = (a.redeclare write).append (b.redeclare write) := by
  simp only [redeclare, append, List.map_append]

namespace Survey

open Listing

/-- The usable candidates stay the same, and so does their order. -/
theorem candidates_redeclare (c : Config α) (given : List (Option Fragment)) :
    candidates c (redeclare write given) = (candidates c given).map (·.redeclare write) := by
  have hgiven : (redeclare write given).filterMap id =
      (given.filterMap id).map (·.redeclare write) := by
    rw [redeclare, List.filterMap_map, List.map_filterMap]
    rfl
  rw [candidates, hgiven, List.filter_map, firstPer_map, ← map_sortBy]
  rfl

/-- The entries of files stay the same, and so does their order. -/
theorem entriesOf_redeclare (files : List FileEntry) :
    entriesOf (files.map (Prod.map id (redeclare write))) =
      (entriesOf files).map (Prod.map id (redeclare write)) := by
  rw [entriesOf, assignAll_map, ← map_sortBy]
  rfl

section Outcomes

variable (outcomes : List (FileEntry × Except String (Report α)))

/-- The outcomes that are reports stay the same. -/
theorem reportsOf_redeclare :
    reportsOf (outcomes.map (redeclareOutcome write)) =
      (reportsOf outcomes).map (·.redeclare write) := by
  rw [reportsOf, reportsOf, List.filterMap_map, List.map_filterMap]
  refine List.filterMap_congr fun x _ ↦ ?_
  obtain ⟨entry, message | report⟩ := x <;> rfl

/-- The failures stay the same. -/
theorem failuresOf_redeclare :
    failuresOf (outcomes.map (redeclareOutcome write)) = failuresOf outcomes := by
  rw [failuresOf, failuresOf, List.filterMap_map]
  refine List.filterMap_congr fun x _ ↦ ?_
  obtain ⟨entry, message | report⟩ := x <;> rfl

/-- The candidates of the files that did not fail stay the same. -/
theorem remaining_redeclare :
    remaining (outcomes.map (redeclareOutcome write)) = redeclare write (remaining outcomes) := by
  rw [remaining, remaining, List.flatMap_map, redeclare, List.map_flatMap]
  refine List.flatMap_congr fun x _ ↦ ?_
  obtain ⟨entry, message | report⟩ := x <;> rfl

end Outcomes

variable [Scalar α]

/-- The scan of one compared pair stays the same. -/
theorem judge_redeclare (s : Survey α) (f g : Fragment) (similarity : Similarity α) :
    s.judge (f.redeclare write) (g.redeclare write) similarity =
      (s.judge f g similarity).redeclare write := by
  rw [judge, judge, Scan.redeclare, apply_ite (List.map _)]
  rfl

/-- The report on a scan stays the same. -/
theorem reportOf_redeclare (c : Config α) (source : String) (candidates : ℕ) (scan : Scan α) :
    reportOf c source candidates (scan.redeclare write) =
      (reportOf c source candidates scan).redeclare write := by
  have hduplicates : sortBy ClonePair.compareScore (scan.redeclare write).accepted =
      (sortBy ClonePair.compareScore scan.accepted).map (·.redeclare write) := by
    rw [Scan.redeclare, ← map_sortBy]
    rfl
  rw [reportOf, hduplicates, Cluster.group_redeclare, Cluster.annotate_redeclare]
  rfl

/-! ### Runs of a survey -/

/-- Comparisons overlook that declared types are written in another way. -/
def Overlooks (s : Survey α) (write : Hints → Hints) : Prop :=
  ∀ f g, s.compare (f.redeclare write) (g.redeclare write) = s.compare f g

/-- The comparison that a configuration asks for overlooks it, as long as every name keeps its
type. -/
theorem overlooks_ofConfig (c : Config α) (h : Hints.Faithful write) :
    (ofConfig c).Overlooks write := fun f g ↦
  congrArg Except.ok (Similarity.compare_congr c.weights (f.agrees_redeclare h)
    (g.agrees_redeclare h))

variable {s : Survey α} (hs : s.Overlooks write)

include hs

/-- A row of a scan stays the same. -/
theorem scanRow_redeclare (w : Watch α) (f : Fragment) (gs : List Fragment) (reads : ℕ) :
    s.scanRow w (f.redeclare write) (gs.map (·.redeclare write)) reads =
      ((s.scanRow w f gs reads).1.map (·.redeclare write), (s.scanRow w f gs reads).2) := by
  induction gs generalizing reads with
  | nil => rfl
  | cons g rest ih =>
    -- The filters do not read declared types.
    have hadmits : Filter.admitsAll s.config s.filters (f.redeclare write) (g.redeclare write) =
        Filter.admitsAll s.config s.filters f g := rfl
    rw [List.map_cons, scanRow_cons, scanRow_cons, hs, hadmits]
    split
    · rfl
    · split
      · cases s.compare f g with
        | error message => rfl
        | ok similarity =>
          simp only [ih, judge_redeclare]
          cases (s.scanRow w f rest (w.check reads).2).1 with
          | error message => rfl
          | ok row =>
            exact congrArg (fun row ↦ (Except.ok row, _)) (Scan.redeclare_append _ row).symm
      · exact ih _

/-- All rows of a scan stay the same. -/
theorem scanRows_redeclare (w : Watch α) (fs : List Fragment) (reads : ℕ) :
    s.scanRows w (fs.map (·.redeclare write)) reads =
      ((s.scanRows w fs reads).1.map (·.redeclare write), (s.scanRows w fs reads).2) := by
  induction fs generalizing reads with
  | nil => rfl
  | cons f rest ih =>
    rw [List.map_cons, scanRows_cons, scanRows_cons, scanRow_redeclare hs]
    cases s.scanRow w f rest reads with
    | mk outcome behind =>
      cases outcome with
      | error message => rfl
      | ok row =>
        simp only [Except.map, ih]
        cases (s.scanRows w rest behind).1 with
        | error message => rfl
        | ok tail =>
          exact congrArg (fun tail ↦ (Except.ok tail, _)) (Scan.redeclare_append row tail).symm

/-- The report on candidates stays the same. -/
theorem report_redeclare (w : Watch α) (source : String) (given : List (Option Fragment))
    (reads : ℕ) :
    s.report w source (redeclare write given) reads =
      ((s.report w source given reads).1.map (·.redeclare write),
        (s.report w source given reads).2) := by
  simp only [report, candidates_redeclare, scanRows_redeclare hs, List.length_map]
  cases (s.scanRows w (candidates s.config given) reads).1 with
  | error message => rfl
  | ok scan => exact congrArg (fun r ↦ (Except.ok r, _)) (reportOf_redeclare _ _ _ scan)

/-- The report on a file stays the same. -/
theorem file_redeclare (clock : Clock α) (deadline : Option (Quantity α)) (source : String)
    (given : List (Option Fragment)) :
    s.file clock deadline source (redeclare write given) =
      (s.file clock deadline source given).map (·.redeclare write) :=
  congrArg Prod.fst (report_redeclare hs _ source given _)

/-- The outcomes for files stay the same. -/
theorem scanFiles_redeclare (w : Watch α) (entries : List FileEntry) (reads : ℕ) :
    s.scanFiles w (entries.map (Prod.map id (redeclare write))) reads =
      ((s.scanFiles w entries reads).1.map (redeclareOutcome write),
        (s.scanFiles w entries reads).2) := by
  induction entries generalizing reads with
  | nil => rfl
  | cons entry rest ih =>
    simp only [List.map_cons, scanFiles, Prod.map_fst, Prod.map_snd, id, report_redeclare hs, ih]
    rfl

/-- The report on a project stays the same. -/
theorem project_redeclare (clock : Clock α) (files : List FileEntry) :
    s.project clock (files.map (Prod.map id (redeclare write))) =
      (s.project clock files).redeclare write := by
  simp only [project, entriesOf_redeclare, scanFiles_redeclare hs, reportsOf_redeclare,
    failuresOf_redeclare, remaining_redeclare, report_redeclare hs]
  split
  · cases (s.report _ projectName _ _).1 with
    | error message => rfl
    | ok report => rfl
  · rfl

end Survey

/-! ### Documents -/

/-- The documents of pairs do not show how declared types are written. -/
theorem ClonePair.documents_redeclare (pairs : List (ClonePair α)) :
    (pairs.map (·.redeclare write)).map ClonePair.document = pairs.map ClonePair.document := by
  rw [List.map_map]
  rfl

section Documents

variable [Numeral α]

/-- The document of a cluster does not show how declared types are written. -/
theorem Cluster.document_redeclare (k : Cluster α) :
    (k.redeclare write).document = k.document := by
  have hpairs : (k.redeclare write).pairs.map ClonePair.document =
      k.pairs.map ClonePair.document := ClonePair.documents_redeclare k.pairs
  rw [document, hpairs, occurrences_redeclare, averageSimilarity_redeclare]
  rfl

/-- The document of a report does not show how declared types are written. -/
theorem Report.document_redeclare (r : Report α) : (r.redeclare write).document = r.document := by
  have hduplicates : (r.redeclare write).duplicates.map ClonePair.document =
      r.duplicates.map ClonePair.document := ClonePair.documents_redeclare r.duplicates
  have hclusters : (r.redeclare write).clusters.map Cluster.document =
      r.clusters.map Cluster.document := by
    rw [redeclare, List.map_map]
    exact List.map_congr_left fun k _ ↦ k.document_redeclare
  have hsummary : (r.redeclare write).summary = r.summary := by
    simp only [summary, redeclare, List.length_map]
  rw [document, hduplicates, hclusters, hsummary]
  simp only [redeclare, List.length_map]
  rfl

/-- The document of a report on a project does not show how declared types are written. -/
theorem ProjectReport.document_redeclare (p : ProjectReport α) :
    (p.redeclare write).document = p.document := by
  have hreports : (p.redeclare write).reports.map Report.document =
      p.reports.map Report.document := by
    rw [redeclare, List.map_map]
    exact List.map_congr_left fun r _ ↦ r.document_redeclare
  have hwhole : (p.redeclare write).whole.elim .null Report.document =
      p.whole.elim .null Report.document := by
    cases hwhole : p.whole with
    | none => simp only [redeclare, hwhole, Option.map_none]
    | some r => simp only [redeclare, hwhole, Option.map_some, Option.elim, r.document_redeclare]
  have hduplicates : (p.redeclare write).duplicates = p.duplicates := by
    rw [duplicates, redeclare, Listing.total_map]
    simp only [Report.redeclare, List.length_map]
    rfl
  have hclusters : (p.redeclare write).clusters = p.clusters := by
    rw [clusters, redeclare, Listing.total_map]
    simp only [Report.redeclare, List.length_map]
    rfl
  rw [document, hreports, hwhole, hduplicates, hclusters]
  simp only [redeclare, List.length_map]
  rfl

namespace Survey

/-- The candidates differ at most in the way in which their declared types are written. -/
def Agree (given given' : List (Option Fragment)) : Prop :=
  List.Forall₂ (Option.Rel Fragment.Agrees) given given'

/-- Candidates that agree become the same where their declared types are written in one way. -/
theorem Agree.redeclare_eq {given given' : List (Option Fragment)} (h : Agree given given')
    (hwrite : ∀ {hints hints' : Hints}, (∀ name, hints.lookup name = hints'.lookup name) →
      write hints = write hints') : redeclare write given = redeclare write given' := by
  have hcandidates {x x' : Option Fragment} (hx : Option.Rel Fragment.Agrees x x') :
      x.map (·.redeclare write) = x'.map (·.redeclare write) := by
    cases hx with
    | none => rfl
    | some hagrees => exact congrArg some (hagrees.redeclare_eq (hwrite hagrees.hints))
  rw [redeclare, redeclare, ← List.forall₂_eq_eq_eq, List.forall₂_map_left_iff,
    List.forall₂_map_right_iff]
  exact h.imp fun _ _ ↦ hcandidates

/-- Only look-ups of declared types matter in a file. Assumes: candidates that differ at most in the
way in which their declared types are written. The survey of a configuration makes the same document
of both, whatever the clock and the deadline. -/
theorem document_file_congr (c : Config α) (clock : Clock α) (deadline : Option (Quantity α))
    (source : String) {given given' : List (Option Fragment)} (h : Agree given given') :
    ((ofConfig c).file clock deadline source given).map Report.document =
      ((ofConfig c).file clock deadline source given').map Report.document := by
  obtain ⟨write, hfaithful, hwrite⟩ := Hints.exists_write
  have hdocument (given : List (Option Fragment)) :
      ((ofConfig c).file clock deadline source (redeclare write given)).map Report.document =
        ((ofConfig c).file clock deadline source given).map Report.document := by
    rw [file_redeclare (overlooks_ofConfig c hfaithful)]
    cases (ofConfig c).file clock deadline source given with
    | error message => rfl
    | ok report => exact congrArg Except.ok report.document_redeclare
  rw [← hdocument given, h.redeclare_eq hwrite, hdocument given']

/-- Only look-ups of declared types matter in a project. Assumes: files of the same names, with
candidates that differ at most in the way in which their declared types are written. The survey of a
configuration makes the same document of both, whatever the clock. -/
theorem document_project_congr (c : Config α) (clock : Clock α) {files files' : List FileEntry}
    (h : List.Forall₂ (fun entry entry' ↦ entry.1 = entry'.1 ∧ Agree entry.2 entry'.2) files
      files') :
    ((ofConfig c).project clock files).document = ((ofConfig c).project clock files').document := by
  obtain ⟨write, hfaithful, hwrite⟩ := Hints.exists_write
  have hdocument (files : List FileEntry) :
      ((ofConfig c).project clock (files.map (Prod.map id (redeclare write)))).document =
        ((ofConfig c).project clock files).document := by
    rw [project_redeclare (overlooks_ofConfig c hfaithful), ProjectReport.document_redeclare]
  have hfiles : files.map (Prod.map id (redeclare write)) =
      files'.map (Prod.map id (redeclare write)) := by
    rw [← List.forall₂_eq_eq_eq, List.forall₂_map_left_iff, List.forall₂_map_right_iff]
    exact h.imp fun _ _ hentry ↦ Prod.ext hentry.1 (hentry.2.redeclare_eq hwrite)
  rw [← hdocument files, hfiles, hdocument files']

end Survey

end Documents

end NearClone
