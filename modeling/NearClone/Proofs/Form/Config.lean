import Mathlib.Data.Int.Notation
import Mathlib.Data.Rat.Init
import NearClone.Form.Config
import NearClone.Number.Fraction

/-!
# Accepted configurations

Whatever a check lets through has the property that the check is there for (`Checked.Ensures`), and
a field ensures what its reading does, given or not, as long as the standard value has the property
too. A configuration is read from fields if each of its values is read from its own
(`Config.ofFields_eq_ok_iff`). So the fields of a configuration are accepted only if they make an
admissible one (`Config.ensures_ofFields`): shares between zero and one, weights that sum to one up
to the tolerance, at least one line and one worker, no negative overhead, a time budget above zero,
and degrees of confidence in order.

The standard configuration is admissible (`Config.admissible_default`). All that this asks of the
numbers is that those among the standard values are within their bounds (`Numeral.HoldsStandards`),
as exact numbers are (`Numeral.holdsStandards_rat`).
-/

set_option autoImplicit false
set_option relaxedAutoImplicit false

namespace NearClone

namespace Form

/-! ### What checks ensure -/

namespace Checked

variable {α β γ : Type} {P : β → Prop} {Q : γ → Prop}

/-- The value that is let through, if there is one. -/
def value? : Checked α β → Option β
  | ok value => some value
  | faulty _ => none

theorem value?_eq_some_iff {x : Checked α β} {value : β} :
    x.value? = some value ↔ x = ok value := by
  cases x <;> simp [value?]

/-- Every value that is let through has a property. -/
def Ensures (P : β → Prop) (x : Checked α β) : Prop := ∀ value, x = ok value → P value

theorem ensures_ok {value : β} (h : P value) : (ok value : Checked α β).Ensures P := by
  rintro _ ⟨rfl⟩
  exact h

theorem ensures_faulty (faults : List (Fault α)) : (faulty faults : Checked α β).Ensures P := by
  rintro _ ⟨⟩

namespace Ensures

/-- Finding faults further out lets through the same. -/
theorem under {x : Checked α β} (hx : x.Ensures P) (step : Step) : (x.under step).Ensures P := by
  cases x with
  | ok value => exact hx
  | faulty faults => exact ensures_faulty _

/-- What is let through is mapped on. -/
theorem map {x : Checked α β} (hx : x.Ensures P) {f : β → γ} (hf : ∀ value, P value → Q (f value)) :
    (f <$> x).Ensures Q := by
  cases x with
  | ok value => exact ensures_ok (hf value (hx value rfl))
  | faulty faults => exact ensures_faulty faults

/-- Two checks together let through what both do. -/
theorem seq {x : Checked α β} (hx : x.Ensures P) {f : Checked α (β → γ)}
    (hf : f.Ensures fun g ↦ ∀ value, P value → Q (g value)) : (f <*> x).Ensures Q := by
  cases f with
  | ok g =>
    cases x with
    | ok value => exact ensures_ok (hf g rfl value (hx value rfl))
    | faulty faults => exact ensures_faulty faults
  | faulty faults =>
    cases x with
    | ok value => exact ensures_faulty faults
    | faulty more => exact ensures_faulty (faults ++ more)

/-- A further check is of what has been let through. -/
theorem refine {x : Checked α β} (hx : x.Ensures P) {check : β → Checked α γ}
    (hcheck : ∀ value, P value → (check value).Ensures Q) : (x.refine check).Ensures Q := by
  cases x with
  | ok value => exact hcheck value (hx value rfl)
  | faulty faults => exact ensures_faulty faults

end Ensures

/-- Without a property to show, everything is ensured. -/
theorem ensures_true (x : Checked α β) : x.Ensures fun _ ↦ True := fun _ _ ↦ trivial

/-- What is let through is let through. -/
theorem ensures_self (x : Checked α β) : x.Ensures fun value ↦ x = ok value := fun _ h ↦ h

/-- What is behind a condition is let through where the condition holds. -/
theorem ite_fault_eq_ok_iff {P : Prop} [Decidable P] {cause : Cause α} {x : Checked α β}
    {value : β} : (if P then x else fault cause) = ok value ↔ P ∧ x = ok value := by
  split
  · next h => exact (and_iff_right h).symm
  · next h => simp [h, fault]

end Checked

/-! ### What readings ensure -/

section Fields

open Checked

variable {α β : Type} {P : β → Prop}

theorem ensures_nullable {r : Reading α β} (hr : ∀ d, (r d).Ensures P) (d : Document α) :
    (nullable r d).Ensures fun value ↦ ∀ x ∈ value, P x := by
  unfold nullable
  split
  · exact ensures_ok fun x hx ↦ absurd hx (Option.not_mem_none x)
  · refine (hr d).map fun x hx y hy ↦ ?_
    exact Option.some.inj hy ▸ hx

/-- Only a form is let through. -/
theorem ensures_form {refusal : Cause α} {r : List (String × Document α) → Checked α β}
    (hr : ∀ fields, (r fields).Ensures P) (d : Document α) : (form refusal r d).Ensures P := by
  unfold form
  split
  · exact hr _
  · exact ensures_faulty _

/-- A field ensures what its reading does, if the value for the case that it is not given has the
property. -/
theorem ensures_orElse {fields : List (String × Document α)} {name : String} {standard : β}
    {r : Reading α β} (hstandard : P standard) (hr : ∀ d, (r d).Ensures P) :
    (orElse fields name standard r).Ensures P := by
  unfold orElse
  split
  · exact (hr _).under _
  · exact ensures_ok hstandard

variable [Numeral α]

/-- A number lies between zero and one. -/
def IsShare (x : α) : Prop := Scalar.ofInt 0 ≤ x ∧ x ≤ Scalar.ofInt 1

instance IsShare.decidable (x : α) : Decidable (IsShare x) :=
  inferInstanceAs (Decidable (Scalar.ofInt 0 ≤ x ∧ x ≤ Scalar.ofInt 1))

theorem ensures_share (d : Document α) : (share d).Ensures IsShare := by
  refine (ensures_true (real d)).refine fun x _ ↦ ?_
  split
  · next hhigh =>
    split
    · next hlow => exact ensures_ok ⟨hlow, hhigh⟩
    · exact ensures_faulty _
  · exact ensures_faulty _

theorem ensures_positive (d : Document α) : (positive d).Ensures fun x ↦ Scalar.ofInt 0 < x := by
  refine (ensures_true (real d)).refine fun x _ ↦ ?_
  split
  · next hpositive => exact ensures_ok hpositive
  · exact ensures_faulty _

theorem ensures_integerFrom (least : ℕ) (d : Document α) :
    (integerFrom least d).Ensures fun n ↦ (least : ℤ) ≤ n := by
  refine (ensures_true (integer d)).refine fun n _ ↦ ?_
  split
  · next hleast => exact ensures_ok hleast
  · exact ensures_faulty _

end Fields

end Form

/-! ### Admissible configurations -/

open Form Checked

variable {α : Type} [Numeral α] {fields : Fields α}

/-- The weights are shares and sum to one, up to the tolerance. -/
structure Weights.Admissible (w : Weights α) : Prop where
  lcs : IsShare w.lcs
  levenshtein : IsShare w.levenshtein
  structural : IsShare w.structural
  isNormalized : w.isNormalized = true

/-- The values of a configuration are within their bounds. -/
structure Config.Admissible (c : Config α) : Prop where
  minLines : 1 ≤ c.minLines
  threshold : IsShare c.threshold
  weights : c.weights.Admissible
  highConfidence : IsShare c.highConfidence
  mediumConfidence : IsShare c.mediumConfidence
  mediumConfidence_le : c.mediumConfidence ≤ c.highConfidence
  callOverhead : 0 ≤ c.callOverhead
  maxWorkers : 1 ≤ c.maxWorkers
  timeBudget : ∀ seconds ∈ c.timeBudget, Scalar.ofInt 0 < seconds

/-! ### What is read from fields -/

/-- Every weight is read from its own field, and the weights sum to one. -/
structure Weights.ReadFrom (w : Weights α) (fields : Fields α) : Prop where
  lcs : orElse fields "lcs" (balanced : Weights α).lcs share = .ok w.lcs
  levenshtein :
    orElse fields "levenshtein" (balanced : Weights α).levenshtein share = .ok w.levenshtein
  structural : orElse fields "structural" (balanced : Weights α).structural share = .ok w.structural
  isNormalized : w.isNormalized = true

/-- Weights are let through if they are read from the fields. -/
theorem Weights.ofFields_eq_ok_iff {w : Weights α} :
    ofFields fields = .ok w ↔ w.ReadFrom fields := by
  constructor
  · refine fun h ↦ Checked.Ensures.refine
      (P := fun w ↦ w.isNormalized = true → w.ReadFrom fields) (Q := (ReadFrom · fields)) ?_ ?_ w h
    · refine .seq (ensures_self _) ?_
      refine .seq (ensures_self _) ?_
      refine .map (ensures_self _) ?_
      exact fun lcs hlcs levenshtein hlevenshtein structural hstructural hnormalized ↦
        ⟨hlcs, hlevenshtein, hstructural, hnormalized⟩
    · intro w hw found hfound
      obtain ⟨hnormalized, heq⟩ := ite_fault_eq_ok_iff.mp hfound
      exact Checked.ok.inj heq ▸ hw hnormalized
  · intro h
    simp only [ofFields, h.lcs, h.levenshtein, h.structural]
    exact if_pos h.isNormalized

/-- Every value of a configuration is read from its own field, and the degrees of confidence are in
order. -/
structure Config.ReadFrom (c : Config α) (fields : Fields α) : Prop where
  minLines :
    orElse fields "min_lines" (default : Config α).minLines (integerFrom 1) = .ok c.minLines
  threshold : orElse fields "threshold" (default : Config α).threshold share = .ok c.threshold
  weights : orElse fields "weights" (default : Config α).weights
    (form .notWeights Weights.ofFields) = .ok c.weights
  crossFile :
    orElse fields "cross_file_comparison" (default : Config α).crossFile flag = .ok c.crossFile
  scope : orElse fields "comparison_scope" (default : Config α).scope Scope.reading = .ok c.scope
  highConfidence :
    orElse fields "high_confidence" (default : Config α).highConfidence share = .ok c.highConfidence
  mediumConfidence : orElse fields "medium_confidence" (default : Config α).mediumConfidence share =
    .ok c.mediumConfidence
  callOverhead : orElse fields "call_site_overhead" (default : Config α).callOverhead
    (integerFrom 0) = .ok c.callOverhead
  maxWorkers :
    orElse fields "max_workers" (default : Config α).maxWorkers (integerFrom 1) = .ok c.maxWorkers
  timeBudget : orElse fields "time_budget_seconds" (default : Config α).timeBudget
    (nullable positive) = .ok c.timeBudget
  mediumConfidence_le : c.mediumConfidence ≤ c.highConfidence

/-- A configuration is let through if it is read from the fields. -/
theorem Config.ofFields_eq_ok_iff {c : Config α} :
    ofFields fields = .ok c ↔ c.ReadFrom fields := by
  constructor
  · refine fun h ↦ Checked.Ensures.refine
      (P := fun c ↦ c.mediumConfidence ≤ c.highConfidence → c.ReadFrom fields)
      (Q := (ReadFrom · fields)) ?_ ?_ c h
    · refine .seq (ensures_self _) ?_
      refine .seq (ensures_self _) ?_
      refine .seq (ensures_self _) ?_
      refine .seq (ensures_self _) ?_
      refine .seq (ensures_self _) ?_
      refine .seq (ensures_self _) ?_
      refine .seq (ensures_self _) ?_
      refine .seq (ensures_self _) ?_
      refine .seq (ensures_self _) ?_
      refine .map (ensures_self _) ?_
      intro minLines hminLines threshold hthreshold weights hweights crossFile hcrossFile scope
        hscope high hhigh medium hmedium callOverhead hcallOverhead maxWorkers hmaxWorkers
        timeBudget htimeBudget hle
      exact ⟨hminLines, hthreshold, hweights, hcrossFile, hscope, hhigh, hmedium, hcallOverhead,
        hmaxWorkers, htimeBudget, hle⟩
    · intro c hc found hfound
      obtain ⟨hle, heq⟩ := ite_fault_eq_ok_iff.mp hfound
      exact Checked.ok.inj heq ▸ hc hle
  · intro h
    simp only [ofFields, h.minLines, h.threshold, h.weights, h.crossFile, h.scope, h.highConfidence,
      h.mediumConfidence, h.callOverhead, h.maxWorkers, h.timeBudget]
    exact if_pos h.mediumConfidence_le

/-! ### Standard values -/

/-- The numbers among the standard values are within their bounds. This is all that these bounds ask
of the numbers at hand. -/
structure Numeral.HoldsStandards (α : Type) [Numeral α] : Prop where
  weight : IsShare (Weights.balanced : Weights α).lcs
  isNormalized : (Weights.balanced : Weights α).isNormalized = true
  threshold : IsShare (Config.default : Config α).threshold
  highConfidence : IsShare (Config.default : Config α).highConfidence
  mediumConfidence : IsShare (Config.default : Config α).mediumConfidence
  mediumConfidence_le :
    (Config.default : Config α).mediumConfidence ≤ (Config.default : Config α).highConfidence

/-- Exact numbers are within the bounds. -/
theorem Numeral.holdsStandards_rat : HoldsStandards ℚ where
  weight := by decide +kernel
  isNormalized := by decide +kernel
  threshold := by decide +kernel
  highConfidence := by decide +kernel
  mediumConfidence := by decide +kernel
  mediumConfidence_le := by decide +kernel

/-- The standard weights are admissible. -/
theorem Weights.admissible_balanced (h : Numeral.HoldsStandards α) :
    (balanced : Weights α).Admissible :=
  ⟨h.weight, h.weight, h.weight, h.isNormalized⟩

/-- The standard configuration is admissible. -/
theorem Config.admissible_default (h : Numeral.HoldsStandards α) :
    (default : Config α).Admissible where
  minLines := of_decide_eq_true rfl
  threshold := h.threshold
  weights := Weights.admissible_balanced h
  highConfidence := h.highConfidence
  mediumConfidence := h.mediumConfidence
  mediumConfidence_le := h.mediumConfidence_le
  callOverhead := of_decide_eq_true rfl
  maxWorkers := of_decide_eq_true rfl
  timeBudget := fun seconds hseconds ↦ absurd hseconds (Option.not_mem_none seconds)

/-! ### What is accepted -/

/-- Only admissible weights are accepted. -/
theorem Weights.ensures_ofFields (h : Numeral.HoldsStandards α) (fields : Fields α) :
    (ofFields fields).Ensures Admissible := by
  intro w haccepted
  have hbalanced := admissible_balanced h
  have hw : w.ReadFrom fields := ofFields_eq_ok_iff.mp haccepted
  exact
    { lcs := ensures_orElse hbalanced.lcs ensures_share _ hw.lcs
      levenshtein := ensures_orElse hbalanced.levenshtein ensures_share _ hw.levenshtein
      structural := ensures_orElse hbalanced.structural ensures_share _ hw.structural
      isNormalized := hw.isNormalized }

/-- Only admissible configurations are accepted. -/
theorem Config.ensures_ofFields (h : Numeral.HoldsStandards α) (fields : Fields α) :
    (ofFields fields).Ensures Admissible := by
  intro c haccepted
  have hdefault := admissible_default h
  have hc : c.ReadFrom fields := ofFields_eq_ok_iff.mp haccepted
  exact
    { minLines := ensures_orElse hdefault.minLines (ensures_integerFrom 1) _ hc.minLines
      threshold := ensures_orElse hdefault.threshold ensures_share _ hc.threshold
      weights := ensures_orElse hdefault.weights
        (ensures_form (Weights.ensures_ofFields h)) _ hc.weights
      highConfidence :=
        ensures_orElse hdefault.highConfidence ensures_share _ hc.highConfidence
      mediumConfidence :=
        ensures_orElse hdefault.mediumConfidence ensures_share _ hc.mediumConfidence
      mediumConfidence_le := hc.mediumConfidence_le
      callOverhead := ensures_orElse hdefault.callOverhead (ensures_integerFrom 0) _ hc.callOverhead
      maxWorkers := ensures_orElse hdefault.maxWorkers (ensures_integerFrom 1) _ hc.maxWorkers
      timeBudget :=
        ensures_orElse hdefault.timeBudget (ensures_nullable ensures_positive) _ hc.timeBudget }

/-- Over exact numbers only admissible configurations are accepted. -/
theorem Config.admissible_of_ofFields {fields : Fields ℚ} {c : Config ℚ}
    (h : ofFields fields = .ok c) : c.Admissible :=
  ensures_ofFields Numeral.holdsStandards_rat fields c h

end NearClone
