import NearClone.Proofs.Similarity.Substitution
import NearClone.Proofs.Survey.Report
import Mathlib.Data.Rat.Init

/-!
# Clusters of one form

Two fragments whose comparison finds no mismatch and which can be merged have the same form: the
same shapes, and the same numbers of slots (`Similarity.form_eq_of_mergeable`). Highly confident
advice to merge a cluster rests on this for each of its pairs. Candidates at one location are the
same, so it carries over to all members, whether they were compared or not
(`Survey.form_eq_of_mem_members`).
-/

set_option autoImplicit false
set_option relaxedAutoImplicit false

namespace NearClone

/-! ### Forms of fragments -/

/-- The numbers of slots of the statements, in order. -/
def Fragment.slotCounts (f : Fragment) : List Nat := f.statements.map (·.slots.length)

/-- What merging leaves as it is: the shapes of the statements and the numbers of their slots. -/
def Fragment.form (f : Fragment) : List String × List Nat := (f.shapes, f.slotCounts)

/-- Fragments of the same form have the same length. -/
theorem Fragment.length_eq_of_shapes_eq {f g : Fragment} (h : f.shapes = g.shapes) :
    f.length = g.length := by
  have hlength := congrArg List.length h
  rwa [shapes, shapes, List.length_map, List.length_map] at hlength

variable {α : Type} [Scalar α]

namespace Similarity

/-- Two fragments can be merged, with no mismatch between them, exactly if their statements are
alike position by position. -/
theorem mergeable_compare_iff (w : Weights α) (f g : Fragment) :
    ((compare w f g).differences.mismatch = false ∧ (compare w f g).canRefactor = true) ↔
      List.Forall₂ Statement.Alike f.statements g.statements := by
  rw [← faultless_compare_iff w f g, forall_variations_compare_iff, canRefactor_compare,
    Bool.not_eq_true']

/-- Two fragments that can be merged, with no mismatch between them, have the same form. -/
theorem form_eq_of_mergeable {w : Weights α} {f g : Fragment}
    (hmismatch : (compare w f g).differences.mismatch = false)
    (hmerge : (compare w f g).canRefactor = true) : f.form = g.form := by
  have halike := (mergeable_compare_iff w f g).mp ⟨hmismatch, hmerge⟩
  exact Prod.ext (Statement.shapes_eq_of_alike halike)
    (Statement.map_eq_of_alike Statement.Alike.slots_length_eq halike)

end Similarity

/-! ### Members of clusters -/

namespace Survey

variable {c : Config α} {given : List (Option Fragment)} {source : String} {count : Nat}
  {scan : Scan α} {k : Cluster α} {advice : Recommendation α} {f g : Fragment}

/-- The fragments of compared pairs at one location are the same. -/
theorem eq_of_location_eq {pairs : List (ClonePair α)}
    (h : ∀ p ∈ pairs, (ofConfig c).Compared (candidates c given) p) :
    ∀ e ∈ pairs.flatMap ClonePair.ends, ∀ e' ∈ pairs.flatMap ClonePair.ends,
      e.location = e'.location → e = e' := by
  have hmem {e : Fragment} (he : e ∈ pairs.flatMap ClonePair.ends) : e ∈ candidates c given := by
    obtain ⟨p, hp, hend⟩ := List.mem_flatMap.mp he
    rcases List.mem_pair.mp hend with rfl | rfl
    · exact (h p hp).left_mem
    · exact (h p hp).right_mem
  intro e he e' he' hlocation
  exact List.inj_on_of_nodup_map (nodup_location_candidates c given) (hmem he) (hmem he') hlocation

/-- The members of a cluster of compared pairs have the same form where the advice is to merge them,
with high confidence. -/
theorem form_eq_of_mem_members
    (hcompared : ∀ p ∈ scan.accepted, (ofConfig c).Compared (candidates c given) p)
    (hk : k ∈ (reportOf c source count scan).clusters) (hadvice : k.recommendation = some advice)
    (hconfidence : advice.confidence = .high) (hstrategy : advice.strategy ≠ .manualReview)
    (hf : f ∈ k.members) (hg : g ∈ k.members) : f.form = g.form := by
  obtain ⟨bare, hbare, ordinal, rfl, hne, hpairs⟩ := of_mem_clusters_reportOf hk
  obtain rfl := Option.some.inj hadvice
  have hmismatch := (Cluster.confidence_recommend_eq_high_iff.mp hconfidence).2
  have hmerge := (Cluster.strategy_ne_manualReview_iff hne).mp hstrategy
  have hends : ∀ p ∈ bare.pairs, p.left.form = p.right.form := by
    intro p hp
    have hcompare := Except.ok.inj (hcompared p (hpairs p hp)).compare_eq
    refine Similarity.form_eq_of_mergeable (w := c.weights) ?_ ?_
    · exact hcompare ▸ hmismatch p hp
    · exact hcompare ▸ hmerge p hp
  have hduplicates : ∀ p ∈ (reportOf c source count scan).duplicates,
      (ofConfig c).Compared (candidates c given) p :=
    fun p hp ↦ hcompared p (Listing.mem_sortBy.mp hp)
  have hunique := eq_of_location_eq hduplicates
  exact Cluster.label_eq_of_mem_members
    (fun e he e' he' hlocation ↦ congrArg Fragment.form (hunique e he e' he' hlocation))
    hbare hends hf hg

/-- Confident advice to merge is about clusters of one form. There is a report on any file, and
wherever it advises with high confidence to merge a cluster, all members of the cluster, compared
with each other or not, have the same length, the same shapes and the same numbers of slots. -/
theorem exists_file_of_one_form (c : Config α) (clock : Clock α) (deadline : Option (Quantity α))
    (source : String) (given : List (Option Fragment)) :
    ∃ report, (ofConfig c).file clock deadline source given = .ok report ∧
      ∀ k ∈ report.clusters, ∀ advice, k.recommendation = some advice →
        advice.confidence = .high → advice.strategy ≠ .manualReview →
        ∀ f ∈ k.members, ∀ g ∈ k.members,
          f.length = g.length ∧ f.shapes = g.shapes ∧ f.slotCounts = g.slotCounts := by
  obtain ⟨scan, hreport, hcompared⟩ :=
    exists_file (neverFails_ofConfig c) clock deadline source given
  refine ⟨_, hreport, ?_⟩
  intro k hk advice hadvice hconfidence hstrategy f hf g hg
  have hform := form_eq_of_mem_members hcompared hk hadvice hconfidence hstrategy hf hg
  have hshapes : f.shapes = g.shapes := congrArg Prod.fst hform
  exact ⟨Fragment.length_eq_of_shapes_eq hshapes, hshapes, congrArg Prod.snd hform⟩

/-- Two calls overlap and are never compared, but each is a clone of a third one. So they are in one
cluster, and the advice is to merge it with high confidence. -/
theorem exists_file_of_one_form_overlap :
    let c : Config ℚ := { Config.default with minLines := 1 }
    let call : Int → String → Fragment := fun line literal ↦
      { statements := [{ shape := "call", kind := "expression", slots := [⟨.literal, literal⟩] }]
        location := ⟨"main", ⟨line, line + 1, 1, 1⟩⟩ }
    let given := [some (call 1 "x"), some (call 2 "y"), some (call 11 "z")]
    Filter.admits c (call 1 "x") (call 2 "y") .overlap = false ∧
      ∃ report, (ofConfig c).file Clock.stopped none "main" given = .ok report ∧
        ∃ k ∈ report.clusters, ∃ advice, k.recommendation = some advice ∧
          advice.confidence = .high ∧ advice.strategy ≠ .manualReview ∧
          call 1 "x" ∈ k.members ∧ call 2 "y" ∈ k.members ∧
          (call 1 "x").slotCounts = (call 2 "y").slotCounts := by
  intro c call given
  let pair : Fragment → ClonePair ℚ := fun f ↦
    ⟨f, call 11 "z", Similarity.compare c.weights f (call 11 "z")⟩
  let pairs := [pair (call 1 "x"), pair (call 2 "y")]
  have hcandidates : candidates c given = [call 1 "x", call 2 "y", call 11 "z"] :=
    Listing.sortBy_of_pairwise (by decide +kernel)
  have hscan : ((ofConfig c).scanRows ⟨Clock.stopped, none⟩ (candidates c given) 0).1 =
      .ok ⟨pairs, 2, false⟩ := by
    have hoverlap : Filter.admitsAll c Filter.standard (call 1 "x") (call 2 "y") = false := by
      decide +kernel
    have hadmits : ∀ f ∈ [call 1 "x", call 2 "y"],
        Filter.admitsAll c Filter.standard f (call 11 "z") = true := by decide +kernel
    have haccepts : ∀ f ∈ [call 1 "x", call 2 "y"],
        c.accepts f (call 11 "z") (Similarity.compare c.weights f (call 11 "z")) = true := by
      decide +kernel
    simp only [List.forall_mem_cons] at hadmits haccepts
    simp [hcandidates, scanRows, scanRow, Watch.check, ofConfig, judge, Scan.append, Except.map,
      hoverlap, hadmits, haccepts, pairs, pair]
  have hsorted : Listing.sortBy ClonePair.compareScore pairs = pairs := by
    refine Listing.sortBy_of_pairwise ?_
    simp only [pairs, List.pairwise_pair]
    decide +kernel
  obtain ⟨report, hreport, hform⟩ := exists_file_of_one_form c Clock.stopped none "main" given
  have hfile : report = reportOf c "main" (candidates c given).length ⟨pairs, 2, false⟩ := by
    rw [file_eq_report] at hreport
    exact Except.ok.inj (hreport.symm.trans (congrArg (Except.map _) hscan))
  obtain ⟨k, hk, hpairs⟩ : ∃ k ∈ Cluster.group c pairs, k.pairs = pairs :=
    Cluster.exists_group_of_one_tree c List.mem_cons_self (by decide +kernel)
  have hmembers : call 1 "x" ∈ k.members ∧ call 2 "y" ∈ k.members := by
    simp only [Cluster.members, Listing.mem_sortBy, hpairs]
    decide +kernel
  have hmergeable : ∀ p ∈ k.pairs,
      p.similarity.differences.mismatch = false ∧ p.similarity.canRefactor = true := by
    have halike (i j : Int) (x y : String) :
        List.Forall₂ Statement.Alike (call i x).statements (call j y).statements :=
      .cons ⟨rfl, rfl, fun h ↦ h.2 rfl⟩ .nil
    rw [hpairs]
    simp only [pairs, List.forall_mem_cons]
    exact ⟨(Similarity.mergeable_compare_iff _ _ _).mpr (halike 1 11 "x" "z"),
      (Similarity.mergeable_compare_iff _ _ _).mpr (halike 2 11 "y" "z"),
      fun p hp ↦ absurd hp List.not_mem_nil⟩
  obtain ⟨ordinal, hadvised⟩ := Cluster.exists_mem_annotate c hk
  have hcluster :
      { k with recommendation := some (k.recommend c ordinal) } ∈ report.clusters := by
    rw [hfile]
    change _ ∈ Cluster.annotate c (Cluster.group c (Listing.sortBy ClonePair.compareScore pairs))
    rwa [hsorted]
  have hconfidence : (k.recommend c ordinal).confidence = .high := by
    refine Cluster.confidence_recommend_eq_high_iff.mpr ⟨?_, fun p hp ↦ (hmergeable p hp).1⟩
    rw [Cluster.averageSimilarity, hpairs]
    decide +kernel
  have hstrategy : (k.recommend c ordinal).strategy ≠ .manualReview := by
    have hne : k.pairs ≠ [] := hpairs ▸ List.cons_ne_nil _ _
    exact (Cluster.strategy_ne_manualReview_iff hne).mpr fun p hp ↦ (hmergeable p hp).2
  obtain ⟨-, -, hcounts⟩ :=
    hform _ hcluster _ rfl hconfidence hstrategy _ hmembers.1 _ hmembers.2
  exact ⟨by decide +kernel, report, hreport, _, hcluster, _, rfl, hconfidence, hstrategy,
    hmembers.1, hmembers.2, hcounts⟩

end Survey

end NearClone
