import NearClone.Proofs.Similarity.Substitution
import NearClone.Proofs.Survey.Report
import Mathlib.Data.Rat.Init

/-!
# Advice is safe

Control flows apart between two fragments if some aligned pair of positions, matched or substituted,
has statements of different kinds of which one directs control. A comparison says so in three
places, its verdict, its variations and its typing, and the three agree
(`Similarity.diverts_compare_iff`, `Similarity.exists_controlFlow_variation_iff`). Over the pairs of
a cluster this decides the advice (`Survey.reports_advisesSafely`): clones between which control
flows apart are left to a reader, and no others are.
-/

set_option autoImplicit false
set_option relaxedAutoImplicit false

namespace NearClone

variable {α : Type} [Scalar α]

/-! ### Flow of control between fragments -/

/-- Control flows apart at some aligned pair of positions: one of the two statements directs it, and
their kinds differ. -/
def Fragment.FlowsApart (f g : Fragment) : Prop :=
  let alignment := Alignment.align f.statements g.statements
  ∃ i j s t, (i, j) ∈ alignment.matched ++ alignment.substituted ∧
    f.statements[i]? = some s ∧ g.statements[j]? = some t ∧
    (s.isControlFlow = true ∨ t.isControlFlow = true) ∧ s.kind ≠ t.kind

namespace Similarity

/-- The verdict of a comparison is that control flows apart. -/
theorem diverts_compare_iff (w : Weights α) (f g : Fragment) :
    (compare w f g).diverts = true ↔ f.FlowsApart g := by
  rw [diverts_compare, List.any_eq_true]
  simp only [Alignment.mem_pairsOf, Fragment.FlowsApart, ← Statement.divertsFrom_iff]
  constructor
  · rintro ⟨p, ⟨i, j, s, t, hplace, hs, ht, rfl⟩, hdiverts⟩
    exact ⟨i, j, s, t, hplace, hs, ht, hdiverts⟩
  · rintro ⟨i, j, s, t, hplace, hs, ht, hdiverts⟩
    exact ⟨⟨i, j, s, t⟩, ⟨i, j, s, t, hplace, hs, ht, rfl⟩, hdiverts⟩

/-- The variations of a comparison have one in the flow of control exactly if its verdict is that
control flows apart. -/
theorem exists_controlFlow_variation_iff (w : Weights α) (f g : Fragment) :
    (∃ v ∈ (compare w f g).differences.variations, v.kind = .controlFlow) ↔
      (compare w f g).diverts = true := by
  rw [← Bool.not_eq_false, ← forall_variations_compare_iff]
  push Not
  rfl

/-- Two fragments cannot be merged exactly if control flows apart between them. -/
theorem canRefactor_compare_eq_false_iff (w : Weights α) (f g : Fragment) :
    (compare w f g).canRefactor = false ↔ f.FlowsApart g := by
  rw [← diverts_compare_iff w f g, canRefactor_compare, Bool.not_eq_false']

end Similarity

/-! ### Advice in reports -/

/-- Every cluster of a report has advice. It is to review the cluster by hand exactly if control
flows apart between the fragments of some pair, and exactly then no method name is suggested. -/
def Report.AdvisesSafely (r : Report α) : Prop :=
  ∀ k ∈ r.clusters, ∃ advice, k.recommendation = some advice ∧
    (advice.strategy = .manualReview ↔ ∃ p ∈ k.pairs, p.left.FlowsApart p.right) ∧
    (advice.methodName = none ↔ advice.strategy = .manualReview)

namespace Survey

/-- All reports that a configuration asks for advise safely. -/
theorem reports_advisesSafely (c : Config α) : (ofConfig c).Reports Report.AdvisesSafely := by
  intro w source given reads
  obtain ⟨scan, hreport, hcompared, -⟩ :=
    exists_report (neverFails_ofConfig c) w source given reads
  refine ⟨_, hreport, fun k hk ↦ ?_⟩
  obtain ⟨bare, -, ordinal, rfl, hne, hpairs⟩ := of_mem_clusters_reportOf hk
  refine ⟨_, rfl, ?_, Cluster.methodName_recommend_eq_none_iff c bare ordinal⟩
  have hpair {p : ClonePair α} (hp : p ∈ bare.pairs) :
      p.similarity.canRefactor = false ↔ p.left.FlowsApart p.right := by
    rw [← Except.ok.inj (hcompared p (hpairs p hp)).compare_eq]
    exact Similarity.canRefactor_compare_eq_false_iff c.weights p.left p.right
  refine (Cluster.strategy_eq_manualReview_iff hne).trans (exists_congr fun p ↦ ?_)
  exact and_congr_right hpair

/-- No advice is unsafe. The three verdicts of a comparison agree: control flows apart at an aligned
pair of positions exactly if the comparison says so, if one of its variations is in the flow of
control, and if its typing is not safe. So in every report on a file or a project, a cluster is to
be reviewed by hand exactly if control flows apart between the fragments of one of its pairs, and
exactly then no method name is suggested. -/
theorem advisesSafely_ofConfig (c : Config α) :
    (∀ (w : Weights α) (f g : Fragment),
      let similarity := Similarity.compare w f g
      (similarity.diverts = true ↔
        ∃ v ∈ similarity.differences.variations, v.kind = .controlFlow) ∧
      (similarity.diverts = true ↔ similarity.typing.safe = false) ∧
      (similarity.diverts = true ↔ f.FlowsApart g)) ∧
    (∀ (clock : Clock α) (deadline : Option (Quantity α)) (source : String)
      (given : List (Option Fragment)), ∃ report,
        (ofConfig c).file clock deadline source given = .ok report ∧ report.AdvisesSafely) ∧
    ∀ (clock : Clock α) (files : List FileEntry),
      let found := (ofConfig c).project clock files
      found.failures = [] ∧
        found.reports.length = (entriesOf files).length ∧
        (found.whole.isSome = true ↔ c.effectiveScope = .project) ∧
        (∀ report ∈ found.reports, report.AdvisesSafely) ∧
        ∀ report ∈ found.whole, report.AdvisesSafely := by
  have hreports := reports_advisesSafely c
  refine ⟨fun w f g ↦ ⟨?_, ?_, ?_⟩, hreports.file, hreports.project⟩
  · exact (Similarity.exists_controlFlow_variation_iff w f g).symm
  · rw [Similarity.safe_compare, Bool.not_eq_false']
  · exact Similarity.diverts_compare_iff w f g

/-- Two loops of the same shape, one with a condition and one over a collection, are in a cluster of
the report, and it is left to a reader. -/
theorem advisesSafely_ofConfig_loop :
    let c : Config ℚ := { Config.default with minLines := 1, crossFile := true }
    let loop : Int → String → Fragment := fun line kind ↦
      { statements := [{ shape := "loop", kind }], location := ⟨"main", ⟨line, line, 1, 1⟩⟩ }
    let given := [some (loop 1 "while"), some (loop 5 "for")]
    (loop 1 "while").FlowsApart (loop 5 "for") ∧
      (Similarity.compare c.weights (loop 1 "while") (loop 5 "for")).typing.safe = false ∧
      (∃ report, (ofConfig c).file Clock.stopped none "main" given = .ok report ∧
        ∃ k ∈ report.clusters, ∃ advice, k.recommendation = some advice ∧
          advice.strategy = .manualReview ∧ advice.methodName = none) ∧
      ∃ report ∈ ((ofConfig c).project Clock.stopped [("main", given)]).whole,
        report.AdvisesSafely := by
  intro c loop given
  have happart : (loop 1 "while").FlowsApart (loop 5 "for") :=
    ⟨0, 0, _, _, by decide +kernel, rfl, rfl, by decide, by decide⟩
  obtain ⟨hverdicts, hfile, hproject⟩ := advisesSafely_ofConfig c
  obtain ⟨-, hsafe, hflow⟩ := hverdicts c.weights (loop 1 "while") (loop 5 "for")
  have hcandidates : candidates c given = [loop 1 "while", loop 5 "for"] :=
    Listing.sortBy_of_pairwise (by decide +kernel)
  refine ⟨happart, hsafe.mp (hflow.mpr happart), ?_, ?_⟩
  · obtain ⟨report, hreport, hadvises⟩ := hfile Clock.stopped none "main" given
    refine ⟨report, hreport, ?_⟩
    obtain ⟨scan, hscan, -, hall⟩ :=
      exists_report (neverFails_ofConfig c) ⟨Clock.stopped, none⟩ "main" given 0
    obtain rfl := Except.ok.inj (hreport.symm.trans hscan)
    have hcompared : (ofConfig c).Compared (candidates c given)
        ⟨loop 1 "while", loop 5 "for",
          Similarity.compare c.weights (loop 1 "while") (loop 5 "for")⟩ :=
      ⟨by rw [hcandidates], by decide +kernel, rfl, by decide +kernel⟩
    obtain ⟨k, hk, hpair⟩ := exists_mem_clusters_reportOf (hall rfl _ hcompared)
    obtain ⟨advice, hadvice, hstrategy, hname⟩ := hadvises k hk
    have hmanual := hstrategy.mpr ⟨_, hpair, happart⟩
    exact ⟨k, hk, advice, hadvice, hmanual, hname.mpr hmanual⟩
  · obtain ⟨-, -, hscope, -, hwhole⟩ := hproject Clock.stopped [("main", given)]
    obtain ⟨report, hreport⟩ := Option.isSome_iff_exists.mp (hscope.mpr rfl)
    exact ⟨report, hreport, hwhole report hreport⟩

end Survey

end NearClone
