import NearClone.Proofs.Cluster.Containment
import NearClone.Proofs.Survey.Candidates
import NearClone.Proofs.Survey.Pairs

/-!
# Consistent reports

Whatever the clock does, and wherever it ends a scan, a clone pair of the report is of two
candidates that are long enough, stand in the reading order and share no line (`Compared.proper`).
The pairs are listed once and in a strict order, each is in one cluster, and there are no more of
them than comparisons, nor more comparisons than pairs of candidates (`consistent_reportOf`). So
every report on a file is consistent (`exists_consistent_file`).
-/

set_option autoImplicit false
set_option relaxedAutoImplicit false

namespace NearClone

variable {α : Type}

/-! ### Lines of a range -/

/-- The lines from the first one to the last one. -/
def SourceRange.Covers (r : SourceRange) (line : Int) : Prop :=
  r.startLine ≤ line ∧ line ≤ r.endLine

/-- Ranges that do not overlap have no line in common. -/
theorem SourceRange.not_covers_of_not_overlaps {r s : SourceRange} (h : r.overlaps s = false)
    {line : Int} (hr : r.Covers line) : ¬ s.Covers line := by
  rw [overlaps, Bool.not_eq_false', Bool.or_eq_true, decide_eq_true_eq, decide_eq_true_eq] at h
  rintro ⟨hstart, hend⟩
  obtain ⟨hstart', hend'⟩ := hr
  omega

/-! ### Consistency -/

/-- Two fragments that may be reported as clones: both are long enough and do not end before they
start, the first comes first in the reading order, and in one file they share no line. -/
structure ClonePair.Proper (c : Config α) (p : ClonePair α) : Prop where
  left_length : c.minLines ≤ p.left.length
  right_length : c.minLines ≤ p.right.length
  left_range : p.left.range.startLine ≤ p.left.range.endLine
  right_range : p.right.range.startLine ≤ p.right.range.endLine
  in_order : p.left.compareReading p.right = .lt
  apart : p.left.file = p.right.file →
    ∀ line, p.left.range.Covers line → ¬ p.right.range.Covers line

/-- The clone pairs of a report are proper ones, at different pairs of locations, and strictly in
order. Each of them is in exactly one cluster, and clusters hold no others and at least two members
each. There are at most as many clone pairs as comparisons, and at most one comparison of every two
candidates. -/
structure Report.Consistent [Scalar α] (r : Report α) : Prop where
  proper : ∀ p ∈ r.duplicates, p.Proper r.config
  nodup_places : (r.duplicates.map ClonePair.places).Nodup
  ascending : r.duplicates.Pairwise fun p q ↦ p.compareScore q = .lt
  clustered : ∀ p ∈ r.duplicates, ∃! i : ℕ, ∃ k ∈ r.clusters[i]?, p ∈ k.pairs
  reported : ∀ k ∈ r.clusters, ∀ p ∈ k.pairs, p ∈ r.duplicates
  two_members : ∀ k ∈ r.clusters, 2 ≤ k.members.length
  duplicates_le : r.duplicates.length ≤ r.compared
  compared_le : r.compared ≤ r.candidates * (r.candidates - 1) / 2

namespace Survey

variable {c : Config α} {given : List (Option Fragment)} {p : ClonePair α} {source : String}
  {count : ℕ} {scan : Scan α}

/-- A candidate is long enough and does not end before it starts. -/
theorem of_mem_candidates {f : Fragment} (h : f ∈ candidates c given) :
    c.minLines ≤ f.length ∧ f.range.startLine ≤ f.range.endLine := by
  obtain ⟨hformed, hlength⟩ := isUsable_iff.mp (mem_usable.mp (mem_usable_of_mem_candidates h)).2
  rw [Fragment.isMalformed, Bool.or_eq_false_iff, SourceRange.isInverted,
    decide_eq_false_iff_not] at hformed
  exact ⟨hlength, Int.not_lt.mp hformed.2⟩

variable [Scalar α]

/-- Pairs of candidates that were compared are proper. -/
theorem Compared.proper (h : (ofConfig c).Compared (candidates c given) p) : p.Proper c where
  left_length := (of_mem_candidates h.left_mem).1
  right_length := (of_mem_candidates h.right_mem).1
  left_range := (of_mem_candidates h.left_mem).2
  right_range := (of_mem_candidates h.right_mem).2
  in_order := List.pairwise_iff_forall_sublist.mp (pairwise_candidates c given) h.sublist
  apart := by
    intro hfile line hleft
    have hadmits := List.all_eq_true.mp h.admits .overlap List.mem_cons_self
    have hoverlap : p.left.location.overlaps p.right.location = false := by
      rwa [Filter.admits, Bool.not_eq_true'] at hadmits
    have hsame : p.left.location.file = p.right.location.file := hfile
    rw [Location.overlaps, decide_eq_true hsame, Bool.true_and] at hoverlap
    exact SourceRange.not_covers_of_not_overlaps hoverlap hleft

/-- Every clone pair of a report is in exactly one of its clusters. -/
theorem existsUnique_cluster (hp : p ∈ scan.accepted) :
    ∃! i : ℕ, ∃ k ∈ (reportOf c source count scan).clusters[i]?, p ∈ k.pairs := by
  obtain ⟨k, hk, hpair⟩ : ∃ k ∈ (reportOf c source count scan).clusters, p ∈ k.pairs :=
    exists_mem_clusters_reportOf hp
  refine Listing.existsUnique_getElem?
    ((List.pairwise_map.mp (Cluster.pairwise_apart_annotate c _)).imp ?_) hk hpair
  rintro a b hapart ⟨ha, hb⟩
  exact hapart p ha p hb (ClonePair.Meets.refl p)

/-- The report on a scan of candidates is consistent. -/
theorem consistent_reportOf (hα : Scalar.Ordered α) {w : Watch α} {reads : ℕ}
    (hscan : ((ofConfig c).scanRows w (candidates c given) reads).1 = .ok scan) (source : String) :
    (reportOf c source (candidates c given).length scan).Consistent := by
  have hcompared : ∀ p ∈ scan.accepted, (ofConfig c).Compared (candidates c given) p :=
    fun p hp ↦ compared_of_mem_scanRows hscan hp
  have hplaces := nodup_places_scanRows (nodup_location_candidates c given) hscan
  have hwithin := within_scanRows hscan
  have hsorted := Listing.sortBy_perm ClonePair.compareScore scan.accepted
  constructor
  case proper =>
    intro p hp
    exact (hcompared p (hsorted.mem_iff.mp hp)).proper
  case nodup_places =>
    exact (hsorted.map ClonePair.places).nodup_iff.mpr hplaces
  case ascending =>
    exact pairwise_sortBy_scanRows hα (nodup_location_candidates c given) hscan
  case clustered =>
    intro p hp
    exact existsUnique_cluster (hsorted.mem_iff.mp hp)
  case reported =>
    intro k hk p hp
    obtain ⟨bare, -, ordinal, rfl, -, hpairs⟩ := of_mem_clusters_reportOf hk
    exact hsorted.mem_iff.mpr (hpairs p hp)
  case two_members =>
    intro k hk
    obtain ⟨bare, -, ordinal, rfl, hne, hpairs⟩ := of_mem_clusters_reportOf hk
    obtain ⟨p, hp⟩ := List.exists_mem_of_ne_nil bare.pairs hne
    refine Cluster.two_le_length_members hp fun hlocation ↦ ?_
    have hbefore := (hcompared p (hpairs p hp)).proper.in_order
    rw [Fragment.compareReading_eq_eq_iff.mpr hlocation] at hbefore
    exact Ordering.noConfusion hbefore
  case duplicates_le =>
    exact hsorted.length_eq.trans_le hwithin.accepted_le
  case compared_le =>
    exact hwithin.compared_le.trans_eq (Nat.choose_two_right _)

/-- Every report on a file is consistent. Assumes: numbers that are ordered. For any candidates, and
whatever the clock shows and the deadline is, there is a report, under the configuration and with as
many candidates as there are, and it is consistent. -/
theorem exists_consistent_file (hα : Scalar.Ordered α) (c : Config α)
    (clock : Clock α) (deadline : Option (Quantity α)) (source : String)
    (given : List (Option Fragment)) :
    ∃ report, (ofConfig c).file clock deadline source given = .ok report ∧
      report.config = c ∧ report.candidates = (candidates c given).length ∧
      report.Consistent := by
  obtain ⟨scan, hscan⟩ := isOk_scanRows (neverFails_ofConfig c)
    ((ofConfig c).watchOf clock deadline).1 (candidates c given)
    ((ofConfig c).watchOf clock deadline).2
  refine ⟨_, ?_, rfl, rfl, consistent_reportOf hα hscan source⟩
  rw [file_eq_report]
  exact congrArg (Except.map _) hscan

/-- Of three calls the first is compared with the others before the deadline has passed, and those
are not compared with each other. The report on so much is consistent. -/
theorem exists_consistent_file_late :
    let c : Config ℚ := { Config.default with minLines := 1 }
    let call : Int → Fragment := fun line ↦
      { statements := [{ shape := "call", kind := "expression" }]
        location := ⟨"main", ⟨line, line, 1, 1⟩⟩ }
    let given := [some (call 1), some (call 11), some (call 21)]
    Scalar.Ordered ℚ ∧
      ∃ report, (ofConfig c).file (Clock.steady (.int 1)) (some (.int 1)) "main" given =
          .ok report ∧
        report.truncated = true ∧ report.duplicates.length = 2 ∧ report.candidates = 3 ∧
        report.Consistent := by
  intro c call given
  have hcandidates : candidates c given = [call 1, call 11, call 21] :=
    Listing.sortBy_of_pairwise (by decide +kernel)
  have hscan : ((ofConfig c).scanRows ⟨Clock.steady (.int 1), some (.int 1)⟩
      (candidates c given) 0).1 = .ok
        ⟨[call 11, call 21].map fun g ↦ ⟨call 1, g, Similarity.compare c.weights (call 1) g⟩,
          2, true⟩ := by
    have hadmits : ∀ g ∈ [call 11, call 21],
        Filter.admitsAll c Filter.standard (call 1) g = true := by decide +kernel
    have haccepts : ∀ g ∈ [call 11, call 21],
        c.accepts (call 1) g (Similarity.compare c.weights (call 1) g) = true := by decide +kernel
    simp only [List.forall_mem_cons] at hadmits haccepts
    simp [hcandidates, scanRows, scanRow, Watch.check, Clock.steady, Quantity.isLess, Quantity.add,
      ofConfig, judge, Scan.append, Except.map, hadmits, haccepts]
  obtain ⟨report, hreport, -, hcount, hconsistent⟩ := exists_consistent_file Scalar.ordered_rat c
    (Clock.steady (.int 1)) (some (.int 1)) "main" given
  refine ⟨Scalar.ordered_rat, report, hreport, ?_, ?_,
    hcount.trans (congrArg List.length hcandidates), hconsistent⟩
  all_goals
    rw [file_eq_report] at hreport
    obtain rfl := Except.ok.inj (hreport.symm.trans (congrArg (Except.map _) hscan))
  · rfl
  · exact Listing.length_sortBy _ _

end Survey

end NearClone
