import NearClone.Proofs.Filter.Bound
import NearClone.Proofs.Survey.Scan

/-!
# Surveys that spare comparisons

A survey spares comparisons of another one when it leaves out only such pairs as would be compared
in vain. Pair by pair and row by row the two then accept the same clone pairs and stop at the same
place (`agrees_scanRow`, `agrees_scanRows`). The filters by lengths and by shapes are of this kind,
so the standard survey reports what a survey without them reports (`file_without_score_filters`).
-/

set_option autoImplicit false
set_option relaxedAutoImplicit false

namespace NearClone

variable {α : Type}

/-! ### Scans that agree -/

/-- Two scans have accepted the same pairs and ended alike, and the first has compared no more. -/
structure Scan.Agrees (a b : Scan α) : Prop where
  accepted_eq : a.accepted = b.accepted
  truncated_eq : a.truncated = b.truncated
  compared_le : a.compared ≤ b.compared

namespace Scan

theorem Agrees.refl (a : Scan α) : a.Agrees a := ⟨rfl, rfl, Nat.le_refl _⟩

/-- Scans that agree part by part agree as a whole. -/
theorem Agrees.append {a b c d : Scan α} (hab : a.Agrees b) (hcd : c.Agrees d) :
    (a.append c).Agrees (b.append d) where
  accepted_eq := by rw [Scan.append, Scan.append, hab.accepted_eq, hcd.accepted_eq]
  truncated_eq := by rw [Scan.append, Scan.append, hab.truncated_eq, hcd.truncated_eq]
  compared_le := Nat.add_le_add hab.compared_le hcd.compared_le

/-- An outcome behind the empty scan is itself. -/
theorem map_append_empty (x : Except String (Scan α)) : x.map (Scan.append {}) = x := by
  cases x with
  | error _ => rfl
  | ok a => simp [Except.map, Scan.append]

/-- Two outcomes agree: both are scans that do, or both are the same failure. -/
inductive OutcomesAgree : Except String (Scan α) → Except String (Scan α) → Prop
  | found {a b : Scan α} (h : a.Agrees b) : OutcomesAgree (.ok a) (.ok b)
  | failed (message : String) : OutcomesAgree (.error message) (.error message)

/-- Outcomes that agree still do behind scans that agree. -/
theorem OutcomesAgree.append {a b : Scan α} (hab : a.Agrees b) {x y : Except String (Scan α)}
    (hxy : OutcomesAgree x y) : OutcomesAgree (x.map a.append) (y.map b.append) := by
  cases hxy with
  | found hcd => exact .found (hab.append hcd)
  | failed message => exact .failed message

end Scan

/-! ### Surveys that agree -/

namespace Survey

open Scan

variable [Scalar α]

/-- The first survey spares comparisons of the second: it differs in the filters alone, admits
fewer pairs, and each pair that only the second one admits is compared and then not accepted. -/
structure Spares (s t : Survey α) : Prop where
  config_eq : s.config = t.config
  compare_eq : s.compare = t.compare
  admits : ∀ f g, Filter.admitsAll s.config s.filters f g = true →
    Filter.admitsAll t.config t.filters f g = true
  vain : ∀ f g, Filter.admitsAll s.config s.filters f g = false →
    Filter.admitsAll t.config t.filters f g = true →
      ∃ similarity, t.compare f g = .ok similarity ∧ t.config.accepts f g similarity = false

/-- A pair that is not accepted adds nothing but a comparison. -/
theorem judge_agrees_of_not_accepts {t : Survey α} {f g : Fragment} {similarity : Similarity α}
    (h : t.config.accepts f g similarity = false) :
    Scan.Agrees {} (t.judge f g similarity) where
  accepted_eq := by rw [judge, h]; rfl
  truncated_eq := rfl
  compared_le := Nat.zero_le _

/-- A survey that spares comparisons judges a compared pair as the other one does. -/
theorem Spares.judge_eq {s t : Survey α} (h : Spares s t) (f g : Fragment)
    (similarity : Similarity α) : s.judge f g similarity = t.judge f g similarity := by
  rw [judge, judge, h.config_eq]

/-- Step by step a row that spares comparisons agrees with the full one, and reads the clock as
often. -/
theorem agrees_scanRow {s t : Survey α} (h : Spares s t) (w : Watch α) (f : Fragment)
    (gs : List Fragment) (reads : ℕ) :
    OutcomesAgree (s.scanRow w f gs reads).1 (t.scanRow w f gs reads).1 ∧
      (s.scanRow w f gs reads).2 = (t.scanRow w f gs reads).2 := by
  induction gs generalizing reads with
  | nil => exact ⟨.found (.refl _), rfl⟩
  | cons g rest ih =>
    obtain ⟨hrest, hreads⟩ := ih (w.check reads).2
    rw [scanRow_cons, scanRow_cons]
    by_cases hlate : (w.check reads).1 = true
    · rw [if_pos hlate, if_pos hlate]
      exact ⟨.found (.refl _), rfl⟩
    rw [if_neg hlate, if_neg hlate]
    by_cases hs : Filter.admitsAll s.config s.filters f g = true
    · rw [if_pos hs, if_pos (h.admits f g hs), h.compare_eq]
      cases t.compare f g with
      | error message => exact ⟨.failed message, rfl⟩
      | ok similarity =>
        simp only [h.judge_eq]
        exact ⟨hrest.append (.refl _), hreads⟩
    · rw [if_neg hs]
      by_cases ht : Filter.admitsAll t.config t.filters f g = true
      · -- Only the full row compares the pair, and it is not accepted.
        obtain ⟨similarity, hcompare, haccepts⟩ := h.vain f g (Bool.not_eq_true _ ▸ hs) ht
        rw [if_pos ht, hcompare]
        have hjudged := hrest.append (judge_agrees_of_not_accepts haccepts)
        rw [map_append_empty] at hjudged
        exact ⟨hjudged, hreads⟩
      · rw [if_neg ht]
        exact ⟨hrest, hreads⟩

/-- Row by row a scan that spares comparisons agrees with the full one. -/
theorem agrees_scanRows {s t : Survey α} (h : Spares s t) (w : Watch α) (fs : List Fragment)
    (reads : ℕ) :
    OutcomesAgree (s.scanRows w fs reads).1 (t.scanRows w fs reads).1 := by
  induction fs generalizing reads with
  | nil => exact .found (.refl _)
  | cons f rest ih =>
    obtain ⟨hrow, hreads⟩ := agrees_scanRow h w f rest reads
    rw [scanRows_cons, scanRows_cons]
    generalize s.scanRow w f rest reads = row at hrow hreads
    generalize t.scanRow w f rest reads = row' at hrow hreads
    obtain ⟨outcome, reads⟩ := row
    obtain ⟨outcome', reads'⟩ := row'
    cases hreads
    cases hrow with
    | found hagrees => exact (ih reads).append hagrees
    | failed message => exact .failed message

/-- A report that spares comparisons finds what the full one finds, with no more comparisons. -/
theorem file_of_spares {s t : Survey α} (h : Spares s t) (ht : t.NeverFails) (clock : Clock α)
    (deadline : Option (Quantity α)) (source : String) (given : List (Option Fragment)) :
    ∃ sparing full : Report α,
      s.file clock deadline source given = .ok sparing ∧
      t.file clock deadline source given = .ok full ∧
      sparing.duplicates = full.duplicates ∧
      sparing.clusters = full.clusters ∧
      sparing.candidates = full.candidates ∧
      sparing.truncated = full.truncated ∧
      sparing.compared ≤ full.compared := by
  have hwatch : s.watchOf clock deadline = t.watchOf clock deadline := by
    simp only [watchOf, h.config_eq]
  have hagree := agrees_scanRows h (t.watchOf clock deadline).1 (candidates t.config given)
    (t.watchOf clock deadline).2
  obtain ⟨scan, hscan⟩ := isOk_scanRows ht (t.watchOf clock deadline).1
    (candidates t.config given) (t.watchOf clock deadline).2
  rw [file_eq_report, file_eq_report, hwatch, h.config_eq, hscan]
  rw [hscan] at hagree
  generalize (s.scanRows (t.watchOf clock deadline).1 (candidates t.config given)
    (t.watchOf clock deadline).2).1 = outcome at hagree
  cases hagree with
  | found hfound =>
    refine ⟨_, _, rfl, rfl, ?_, ?_, rfl, hfound.truncated_eq, hfound.compared_le⟩
    · simp only [reportOf, hfound.accepted_eq]
    · simp only [reportOf, hfound.accepted_eq]

/-! ### The filters by lengths and by shapes -/

/-- The standard filters spare the comparisons that the bound of the score makes vain. -/
theorem spares_standard {c : Config ℚ} (hw : c.weights.Nonnegative) (hmin : 1 ≤ c.minLines) :
    Spares (ofConfig c) { ofConfig c with filters := [.overlap, .scope] } where
  config_eq := rfl
  compare_eq := rfl
  admits := by
    intro f g h
    simp only [ofConfig, Filter.standard, Filter.admitsAll, List.all_cons, List.all_nil,
      Bool.and_eq_true] at h ⊢
    exact ⟨h.1, h.2.1, trivial⟩
  vain := by
    intro f g hstandard hplaces
    refine ⟨Similarity.compare c.weights f g, rfl,
      Filter.accepts_compare_of_not_admits hw hmin ?_⟩
    simp only [ofConfig, Filter.standard, Filter.admitsAll, List.all_cons, List.all_nil,
      Bool.and_true, Bool.and_eq_true] at hstandard hplaces
    rw [hplaces.1, hplaces.2, Bool.true_and, Bool.true_and, Bool.and_eq_false_iff] at hstandard
    exact hstandard

/-- Soundness of the score filters. Assumes: weights that are not negative and a least length of at
least one. A pair that the filter by lengths or the one by shapes turns away would not be accepted;
so the report on any candidates has the same clone pairs and the same clusters with all filters as
with those for overlap and scope alone. It spares comparisons at most. -/
theorem file_without_score_filters {c : Config ℚ} (hw : c.weights.Nonnegative)
    (hmin : 1 ≤ c.minLines) :
    (∀ f g : Fragment,
      Filter.admits c f g .size = false ∨ Filter.admits c f g .tokens = false →
        c.accepts f g (Similarity.compare c.weights f g) = false) ∧
    ∀ (clock : Clock ℚ) (deadline : Option (Quantity ℚ)) (source : String)
      (given : List (Option Fragment)), ∃ filtered full : Report ℚ,
        (ofConfig c).file clock deadline source given = .ok filtered ∧
        ({ ofConfig c with filters := [.overlap, .scope] } : Survey ℚ).file clock deadline source
          given = .ok full ∧
        filtered.duplicates = full.duplicates ∧
        filtered.clusters = full.clusters ∧
        filtered.candidates = full.candidates ∧
        filtered.truncated = full.truncated ∧
        filtered.compared ≤ full.compared := by
  constructor
  · intro f g h
    exact Filter.accepts_compare_of_not_admits hw hmin h
  · intro clock deadline source given
    exact file_of_spares (spares_standard hw hmin) (neverFails_ofConfig c) clock deadline source
      given

/-- Under the default configuration five calls and five assignments are turned away for want of a
common shape, they would not be accepted, and leaving the filters out reports nothing more. -/
theorem file_without_score_filters_default :
    let c : Config ℚ := Config.default
    let calls : Fragment :=
      { statements := List.replicate 5 { shape := "call", kind := "expression" }
        location := ⟨"main", ⟨1, 5, 1, 1⟩⟩ }
    let assignments : Fragment :=
      { statements := List.replicate 5 { shape := "assign", kind := "expression" }
        location := ⟨"main", ⟨11, 15, 1, 1⟩⟩ }
    c.weights.Nonnegative ∧ 1 ≤ c.minLines ∧
      Filter.admits c calls assignments .tokens = false ∧
      c.accepts calls assignments (Similarity.compare c.weights calls assignments) = false ∧
      ∃ filtered full : Report ℚ,
        (ofConfig c).file Clock.stopped none "main" [some calls, some assignments] =
          .ok filtered ∧
        ({ ofConfig c with filters := [.overlap, .scope] } : Survey ℚ).file Clock.stopped none
          "main" [some calls, some assignments] = .ok full ∧
        filtered.duplicates = full.duplicates ∧
        filtered.clusters = full.clusters := by
  intro c calls assignments
  have hw : c.weights.Nonnegative := ⟨by decide +kernel, by decide +kernel, by decide +kernel⟩
  have hmin : 1 ≤ c.minLines := by decide
  have htokens : Filter.admits c calls assignments .tokens = false := by decide +kernel
  obtain ⟨hreject, hreport⟩ := file_without_score_filters hw hmin
  obtain ⟨filtered, full, hfiltered, hfull, hduplicates, hclusters, -⟩ :=
    hreport Clock.stopped none "main" [some calls, some assignments]
  exact ⟨hw, hmin, htokens, hreject calls assignments (Or.inr htokens), filtered, full, hfiltered,
    hfull, hduplicates, hclusters⟩

end Survey

end NearClone
