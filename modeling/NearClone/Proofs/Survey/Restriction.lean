import NearClone.Proofs.Cluster.Containment
import NearClone.Proofs.Survey.Candidates
import NearClone.Proofs.Survey.Pairs
import NearClone.Proofs.Survey.Sparing

/-!
# Reports that restrict reports

A report that time cannot cut short has all clone pairs that are good enough, and no others
(`full_of_report`). If the pairs that are good enough for one survey are some of those of
another, then its report lists some of the pairs of the other in the same order, and its clusters
lie within those of the other (`Report.Full.restricts`).

A larger threshold and a larger least length do this. Which pairs the filters by lengths and by
shapes turn away depends on the threshold, but not which pairs are good enough
(`Spares.compared_iff`). So the stricter report is the other one without the pairs that fail
(`file_of_raises`).
-/

set_option autoImplicit false
set_option relaxedAutoImplicit false

namespace NearClone

variable {α : Type}

/-- The narrow report keeps some clone pairs of the wide one, in the same order, and the members of
each of its clusters are members of just one cluster of the wide report. -/
structure Report.Restricts (narrow wide : Report α) (keeps : ClonePair α → Bool) : Prop where
  duplicates_eq : narrow.duplicates = wide.duplicates.filter keeps
  within : ∀ k ∈ narrow.clusters, ∃! i : ℕ, ∃ k' ∈ wide.clusters[i]?, k.places ⊆ k'.places

variable [Scalar α]

/-- The clone pairs of the report are all that are good enough among the fragments, strictly in
order, and its clusters are what hangs together. -/
structure Report.Full (s : Survey α) (fs : List Fragment) (r : Report α) : Prop where
  ascending : r.duplicates.Pairwise fun p q ↦ p.compareScore q = .lt
  mem_duplicates : ∀ p, p ∈ r.duplicates ↔ s.Compared fs p
  clusters_eq : r.clusters = Cluster.annotate r.config (Cluster.group r.config r.duplicates)

/-- If the pairs that are good enough for a survey are some of those of another, then its report
restricts the other one. -/
theorem Report.Full.restricts (hα : Scalar.Ordered α) {s s' : Survey α} {fs fs' : List Fragment}
    {wide narrow : Report α} {keeps : ClonePair α → Bool} (hwide : wide.Full s fs)
    (hnarrow : narrow.Full s' fs')
    (h : ∀ p, s'.Compared fs' p ↔ s.Compared fs p ∧ keeps p = true) :
    narrow.Restricts wide keeps := by
  have hduplicates : narrow.duplicates = wide.duplicates.filter keeps := by
    refine ClonePair.eq_of_mem_iff hα
      (fun p hp ↦ ((hnarrow.mem_duplicates p).mp hp).threshold_le) hnarrow.ascending
      (hwide.ascending.filter _) fun p ↦ ?_
    rw [List.mem_filter, hnarrow.mem_duplicates, hwide.mem_duplicates, h]
  refine ⟨hduplicates, fun k hk ↦ ?_⟩
  have hsubset : narrow.duplicates ⊆ wide.duplicates := by
    rw [hduplicates]
    exact List.filter_subset_self _
  rw [hnarrow.clusters_eq] at hk
  obtain ⟨bare, hbare, ordinal, rfl⟩ := Cluster.exists_of_mem_annotate hk
  obtain ⟨tree, -, hne⟩ := Cluster.exists_tree_of_mem_group hbare
  obtain ⟨outer, houter, hpairs⟩ := Cluster.exists_group_of_subset wide.config hsubset hbare
  obtain ⟨ordinal', hadvised⟩ := Cluster.exists_mem_annotate wide.config houter
  rw [hwide.clusters_eq]
  exact Cluster.existsUnique_of_subset (Cluster.pairwise_apart_annotate _ _) hne hadvised
    (Cluster.places_subset_of_pairs_subset hpairs)

namespace Survey

variable {s t : Survey α} {fs : List Fragment} {p : ClonePair α}

/-- Without a deadline a report on candidates has all their clone pairs. -/
theorem full_of_report (hα : Scalar.Ordered α) {w : Watch α} (hw : w.deadline = none)
    {source : String} {given : List (Option Fragment)} {reads : ℕ} {report : Report α}
    (h : (s.report w source given reads).1 = .ok report) :
    report.source = source ∧ report.Full s (candidates s.config given) := by
  obtain ⟨scan, hscan, rfl⟩ := map_eq_ok_iff.mp h
  have hcheck (reads : ℕ) : (w.check reads).1 = false :=
    congrArg Prod.fst (Watch.check_of_deadline_eq_none hw reads)
  refine ⟨rfl, ?_, ?_, rfl⟩
  · exact pairwise_sortBy_scanRows hα (nodup_location_candidates s.config given) hscan
  · intro p
    exact Listing.mem_sortBy.trans
      ⟨compared_of_mem_scanRows hscan, mem_accepted_scanRows hcheck hscan⟩

/-- Without a time budget there is a report on any file that has all its clone pairs. -/
theorem exists_full_file (hα : Scalar.Ordered α) {c : Config α} (hbudget : c.timeBudget = none)
    (clock : Clock α) (source : String) (given : List (Option Fragment)) :
    ∃ report, (ofConfig c).file clock none source given = .ok report ∧
      report.Full (ofConfig c) (candidates c given) := by
  obtain ⟨scan, hfile, -⟩ := exists_file (neverFails_ofConfig c) clock none source given
  exact ⟨_, hfile, (full_of_report hα (deadline_watchOf hbudget clock) hfile).2⟩

/-! ### Fewer fragments, fewer filters -/

/-- The pairs that are good enough among some fragments are those of such fragments. -/
theorem compared_filter_iff {keeps : Fragment → Bool} :
    s.Compared (fs.filter keeps) p ↔
      s.Compared fs p ∧ keeps p.left = true ∧ keeps p.right = true := by
  constructor
  · intro h
    exact ⟨h.mono List.filter_sublist, List.of_mem_filter h.left_mem,
      List.of_mem_filter h.right_mem⟩
  · rintro ⟨h, hleft, hright⟩
    have hsublist := h.sublist.filter keeps
    rw [List.filter_cons_of_pos hleft, List.filter_cons_of_pos hright] at hsublist
    exact ⟨hsublist, h.admits, h.compare_eq, h.accepts⟩

/-- To spare comparisons does not change which pairs are good enough. -/
theorem Spares.compared_iff (h : Spares s t) : s.Compared fs p ↔ t.Compared fs p := by
  constructor
  · intro hs
    exact ⟨hs.sublist, h.admits _ _ hs.admits, h.compare_eq ▸ hs.compare_eq,
      h.config_eq ▸ hs.accepts⟩
  · intro ht
    refine ⟨ht.sublist, ?_, h.compare_eq ▸ ht.compare_eq, h.config_eq ▸ ht.accepts⟩
    by_contra hturned
    obtain ⟨similarity, hcompare, hrejects⟩ :=
      h.vain p.left p.right (Bool.not_eq_true _ ▸ hturned) ht.admits
    obtain rfl := Except.ok.inj (ht.compare_eq.symm.trans hcompare)
    exact Bool.noConfusion (hrejects.symm.trans ht.accepts)

end Survey

/-! ### Stricter configurations -/

/-- The first configuration asks for at least the score and the length that the second asks for, and
is the same in everything else. -/
structure Config.Raises (c' c : Config α) : Prop where
  threshold_le : c.threshold ≤ c'.threshold
  minLines_le : c.minLines ≤ c'.minLines
  rest_eq : c' = { c with threshold := c'.threshold, minLines := c'.minLines }

namespace Config

variable {c c' : Config ℚ} {f g : Fragment} {similarity : Similarity ℚ}

/-- What is good enough for a stricter configuration is good enough. -/
theorem Raises.accepts (h : c'.Raises c) (haccepts : c'.accepts f g similarity = true) :
    c.accepts f g similarity = true := by
  obtain ⟨hscore, hleft, hright⟩ := accepts_iff.mp haccepts
  exact accepts_iff.mpr ⟨h.threshold_le.trans hscore, h.minLines_le.trans hleft,
    h.minLines_le.trans hright⟩

end Config

namespace Survey

variable {c c' : Config ℚ} {fs : List Fragment} {p : ClonePair ℚ}

/-- The pairs that are good enough under a stricter configuration are those among the others that it
accepts. -/
theorem compared_iff_of_raises (hw : c.weights.Nonnegative) (hmin : 1 ≤ c.minLines)
    (h : c'.Raises c) :
    (ofConfig c').Compared fs p ↔
      (ofConfig c).Compared fs p ∧ c'.accepts p.left p.right p.similarity = true := by
  have hw' : c'.weights.Nonnegative := by
    rw [h.rest_eq]
    exact hw
  rw [(spares_standard hw' (hmin.trans h.minLines_le)).compared_iff,
    (spares_standard hw hmin).compared_iff]
  -- Without the filters by score only acceptance tells the configurations apart.
  have hadmits : Filter.admitsAll c' [.overlap, .scope] p.left p.right =
      Filter.admitsAll c [.overlap, .scope] p.left p.right := by
    rw [h.rest_eq]
    rfl
  have hcompare : (ofConfig c').compare p.left p.right = (ofConfig c).compare p.left p.right := by
    rw [h.rest_eq]
    rfl
  constructor
  · rintro ⟨hsublist, hadmitted, hcompared, haccepts⟩
    exact ⟨⟨hsublist, hadmits ▸ hadmitted, hcompare ▸ hcompared, h.accepts haccepts⟩, haccepts⟩
  · rintro ⟨⟨hsublist, hadmitted, hcompared, -⟩, haccepts⟩
    exact ⟨hsublist, hadmits ▸ hadmitted, hcompare ▸ hcompared, haccepts⟩

/-- A larger threshold and a larger least length only filter. Assumes: weights that are not
negative, a least length of at least one, no time budget, and usable fragments that are the same
where they are at one location. The clone pairs under the stricter configuration are those under
the other one with a score that is high enough and fragments that are long enough, in the same
order, and each cluster is within just one cluster. -/
theorem file_of_raises (hw : c.weights.Nonnegative) (hmin : 1 ≤ c.minLines)
    (hbudget : c.timeBudget = none) (h : c'.Raises c) {given : List (Option Fragment)}
    (hplaces : Fragment.Unambiguous (usable c given)) (clock clock' : Clock ℚ) (source : String) :
    ∃ wide narrow : Report ℚ,
      (ofConfig c).file clock none source given = .ok wide ∧
      (ofConfig c').file clock' none source given = .ok narrow ∧
      narrow.Restricts wide fun p ↦ c'.threshold ≤ p.similarity.overall ∧
        c'.minLines ≤ p.left.length ∧ c'.minLines ≤ p.right.length := by
  have hbudget' : c'.timeBudget = none := by
    rw [h.rest_eq]
    exact hbudget
  obtain ⟨wide, hwide, hwideFull⟩ :=
    exists_full_file Scalar.ordered_rat hbudget clock source given
  obtain ⟨narrow, hnarrow, hnarrowFull⟩ :=
    exists_full_file Scalar.ordered_rat hbudget' clock' source given
  refine ⟨wide, narrow, hwide, hnarrow, hwideFull.restricts Scalar.ordered_rat hnarrowFull ?_⟩
  intro p
  rw [candidates_of_le_minLines hplaces h.minLines_le, compared_filter_iff,
    compared_iff_of_raises hw hmin h, and_assoc, decide_eq_true_eq, ← Config.accepts_iff]
  refine and_congr_right fun _ ↦ and_iff_left_of_imp fun haccepts ↦ ?_
  obtain ⟨-, hleft, hright⟩ := Config.accepts_iff.mp haccepts
  exact ⟨decide_eq_true hleft, decide_eq_true hright⟩

/-- Of two calls, the same two again and a single call every two are clones. Where clones have to be
longer, only the first ones are left. -/
theorem file_of_raises_longer :
    let c : Config ℚ := { Config.default with minLines := 1, threshold := 1 / 2 }
    let c' : Config ℚ := { c with minLines := 2, threshold := 3 / 4 }
    let calls : ℕ → Int → Fragment := fun count line ↦
      { statements := List.replicate count { shape := "call", kind := "expression" }
        location := ⟨"main", ⟨line, line + 1, 1, 1⟩⟩ }
    let given := [some (calls 2 1), some (calls 2 11), some (calls 1 21)]
    c.weights.Nonnegative ∧ 1 ≤ c.minLines ∧ c.timeBudget = none ∧ c'.Raises c ∧
      Fragment.Unambiguous (usable c given) ∧
      ∃ wide narrow : Report ℚ,
        (ofConfig c).file Clock.stopped none "main" given = .ok wide ∧
        (ofConfig c').file (Clock.steady (.int 1)) none "main" given = .ok narrow ∧
        wide.duplicates.length = 3 ∧ narrow.duplicates.length = 1 ∧
        narrow.Restricts wide fun p ↦ c'.threshold ≤ p.similarity.overall ∧
          c'.minLines ≤ p.left.length ∧ c'.minLines ≤ p.right.length := by
  intro c c' calls given
  have hw : c.weights.Nonnegative := ⟨by decide +kernel, by decide +kernel, by decide +kernel⟩
  have hmin : 1 ≤ c.minLines := by decide
  have hraises : c'.Raises c := ⟨by decide +kernel, by decide, rfl⟩
  have husable : usable c given = [calls 2 1, calls 2 11, calls 1 21] := by decide +kernel
  have hplaces : Fragment.Unambiguous (usable c given) := by
    rw [husable, Fragment.Unambiguous]
    decide +kernel
  let pairs : List (ClonePair ℚ) :=
    [(calls 2 1, calls 2 11), (calls 2 1, calls 1 21), (calls 2 11, calls 1 21)].map fun (f, g) ↦
      ⟨f, g, Similarity.compare c.weights f g⟩
  have hscan : ((ofConfig c).scanRows ⟨Clock.stopped, none⟩ (candidates c given) 0).1 =
      .ok ⟨pairs, 3, false⟩ := by
    have hcandidates : candidates c given = [calls 2 1, calls 2 11, calls 1 21] :=
      Listing.sortBy_of_pairwise (by decide +kernel)
    have hadmits : ∀ p ∈ pairs, Filter.admitsAll c Filter.standard p.left p.right = true := by
      decide +kernel
    have haccepts : ∀ p ∈ pairs, c.accepts p.left p.right p.similarity = true := by
      decide +kernel
    simp only [pairs, List.map_cons, List.map_nil, List.forall_mem_cons] at hadmits haccepts
    simp [hcandidates, scanRows, scanRow, Watch.check, ofConfig, judge, Scan.append, Except.map,
      hadmits, haccepts, pairs]
  obtain ⟨wide, narrow, hwide, hnarrow, hrestricts⟩ := file_of_raises hw hmin rfl hraises hplaces
    Clock.stopped (Clock.steady (.int 1)) "main"
  have hduplicates : wide.duplicates.Perm pairs := by
    rw [file_eq_report] at hwide
    obtain rfl := Except.ok.inj (hwide.symm.trans (congrArg (Except.map _) hscan))
    exact Listing.sortBy_perm _ _
  refine ⟨hw, hmin, rfl, hraises, hplaces, wide, narrow, hwide, hnarrow, hduplicates.length_eq, ?_,
    hrestricts⟩
  rw [hrestricts.duplicates_eq]
  exact (hduplicates.filter _).length_eq.trans (by decide +kernel)

end Survey

end NearClone
