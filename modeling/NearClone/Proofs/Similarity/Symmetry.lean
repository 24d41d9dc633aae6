import NearClone.Proofs.Alignment.Order
import NearClone.Proofs.Alignment.Symmetry
import NearClone.Proofs.EditDistance
import NearClone.Proofs.Similarity.Compare

/-!
# Comparisons from either side

Comparing two fragments the other way round gives the same scores and verdicts, and the same
variations with their sides exchanged. The variations of a pair turn with it
(`AlignedPair.variations_swapped`), pairs come in one order from either side
(`Alignment.pairsOf_swapped`), and a typing of variations depends on the sides only in its
texts (`Typing.unify_swapped`, `Typing.warned_swapped`). `compare_swap` puts these together.
-/

set_option autoImplicit false
set_option relaxedAutoImplicit false

namespace NearClone

/-! ### Variations -/

/-- A variation seen from the second fragment. -/
def Variation.swapped (v : Variation) : Variation :=
  { v with
    leftIndex := v.rightIndex
    rightIndex := v.leftIndex
    left := v.right
    right := v.left }

@[simp]
theorem Variation.kind_swapped (v : Variation) : v.swapped.kind = v.kind := rfl

/-- The kind of a difference between two slots does not depend on their order. -/
theorem VariationKind.ofSlots_comm (a b : SlotKind) : ofSlots b a = ofSlots a b := by
  cases a <;> cases b <;> rfl

namespace AlignedPair

/-- An aligned pair seen from the second list. -/
def swapped (p : AlignedPair) : AlignedPair := ⟨p.rightIndex, p.leftIndex, p.right, p.left⟩

@[simp]
theorem diverts_swapped (p : AlignedPair) : p.swapped.diverts = p.diverts :=
  Statement.divertsFrom_comm p.right p.left

/-- The difference between two slots turns with their pair. -/
theorem slotVariation?_swapped (p : AlignedPair) (a b : Slot) (slot : ℕ) :
    p.swapped.slotVariation? b a slot = (p.slotVariation? a b slot).map Variation.swapped := by
  by_cases htext : a.text = b.text
  · rw [slotVariation?, slotVariation?, if_pos htext, if_pos htext.symm]
    rfl
  · rw [slotVariation?, slotVariation?, if_neg htext, if_neg (Ne.symm htext),
      VariationKind.ofSlots_comm a.kind b.kind, Literal.commonType?_comm b.text a.text]
    rfl

/-- The differences between slots turn with their pair, and keep their order. -/
theorem slotVariations_swapped (p : AlignedPair) :
    p.swapped.slotVariations = p.slotVariations.map Variation.swapped := by
  have hzip : p.right.slots.zip p.left.slots = (p.left.slots.zip p.right.slots).map Prod.swap :=
    (List.zip_swap p.left.slots p.right.slots).symm
  change (p.right.slots.zip p.left.slots).zipIdx.filterMap _ = _
  rw [hzip, List.zipIdx_map, List.filterMap_map, slotVariations, List.map_filterMap]
  congr 1
  funext entry
  exact slotVariation?_swapped p entry.1.1 entry.1.2 entry.2

/-- The variations at a pair turn with it, and keep their order. -/
theorem variations_swapped (p : AlignedPair) :
    p.swapped.variations = p.variations.map Variation.swapped := by
  have hshape : p.swapped.left.shape = p.swapped.right.shape ↔ p.left.shape = p.right.shape :=
    eq_comm
  rw [variations, variations, diverts_swapped]
  by_cases hdiverts : p.diverts = true
  · rw [if_pos hdiverts, if_pos hdiverts]
    rfl
  · rw [if_neg hdiverts, if_neg hdiverts]
    by_cases hequal : p.left.shape = p.right.shape
    · rw [if_pos hequal, if_pos (hshape.mpr hequal), slotVariations_swapped]
    · rw [if_neg hequal, if_neg fun h ↦ hequal (hshape.mp h)]
      rfl

/-- Whether a pair differs in a way that no variation expresses does not depend on its sides. -/
@[simp]
theorem mismatches_swapped (p : AlignedPair) : p.swapped.mismatches = p.mismatches := by
  rw [mismatches, mismatches, diverts_swapped]
  simp only [swapped, ne_eq, eq_comm]

end AlignedPair

/-- Aligned statements that ascend on both sides come in the same order from either side. -/
theorem Alignment.pairsOf_swapped {a : Alignment} (h : a.aligned.Pairwise Before)
    (ss ts : List Statement) :
    a.swapped.pairsOf ts ss = (a.pairsOf ss ts).map AlignedPair.swapped := by
  rw [pairsOf, pairsOf, aligned_swapped h, List.filterMap_map, List.map_filterMap]
  congr 1
  funext place
  obtain ⟨i, j⟩ := place
  change (ts[j]? >>= fun t ↦ ss[i]? >>= fun s ↦ some ⟨(j : Int), i, t, s⟩) =
    (ss[i]? >>= fun s ↦ ts[j]? >>= fun t ↦ some ⟨(i : Int), j, s, t⟩).map AlignedPair.swapped
  cases ss[i]? <;> cases ts[j]? <;> rfl

namespace Differences

variable {a : Alignment} (h : a.aligned.Pairwise Alignment.Before) (ss ts : List Statement)

include h in
/-- The variations along an alignment turn with it, and keep their order. -/
theorem variations_along_swapped :
    (along ts ss a.swapped).variations = (along ss ts a).variations.map Variation.swapped := by
  simp only [along, ofPairs, Alignment.pairsOf_swapped h, List.flatMap_map, List.map_flatMap,
    AlignedPair.variations_swapped]

include h in
/-- A mismatch along an alignment is one from either side. -/
theorem mismatch_along_swapped :
    (along ts ss a.swapped).mismatch = (along ss ts a).mismatch := by
  have hpairs : (a.swapped.pairsOf ts ss).any AlignedPair.mismatches =
      (a.pairsOf ss ts).any AlignedPair.mismatches := by
    rw [Alignment.pairsOf_swapped h, List.any_map]
    simp only [Function.comp_def, AlignedPair.mismatches_swapped]
  change (!a.rightOnly.isEmpty || !a.leftOnly.isEmpty || _) = _
  rw [hpairs, Bool.or_comm (!a.rightOnly.isEmpty)]
  rfl

end Differences

/-- Control flows differently along an alignment from either side. -/
theorem Alignment.any_diverts_swapped {a : Alignment} (h : a.aligned.Pairwise Before)
    (ss ts : List Statement) :
    (a.swapped.pairsOf ts ss).any AlignedPair.diverts =
      (a.pairsOf ss ts).any AlignedPair.diverts := by
  rw [pairsOf_swapped h, List.any_map]
  simp only [Function.comp_def, AlignedPair.diverts_swapped]

/-! ### Typings -/

namespace Typing

/-- The type of two sides does not depend on their order. -/
theorem agree_comm (left right recorded : Option String) :
    agree right left recorded = agree left right recorded := by
  cases left with
  | none => cases right <;> rfl
  | some a =>
    cases right with
    | none => rfl
    | some b =>
      by_cases hab : a = b
      · rw [hab]
      · simp only [agree, if_neg hab, if_neg (Ne.symm hab)]

/-- The type of a variation as a parameter does not depend on its sides. -/
theorem unify_swapped (left right : Hints) (v : Variation) :
    unify right left v.swapped = unify left right v := by
  by_cases hkind : v.kind = .literal
  · rw [unify, unify, Variation.kind_swapped, if_pos hkind, if_pos hkind]
    exact agree_comm _ _ _
  · rw [unify, unify, Variation.kind_swapped, if_neg hkind, if_neg hkind]
    exact agree_comm _ _ _

/-- The variations that are warned about, in order: the first one that changes the flow of control,
unless `flagged` tells that there was one already, and every other one that cannot be unified. -/
def warned (left right : Hints) : (flagged : Bool) → List Variation → List Variation
  | _, [] => []
  | flagged, v :: vs =>
    if v.kind = .controlFlow then
      if flagged then warned left right true vs else v :: warned left right true vs
    else if (unify left right v).isSome then warned left right flagged vs
    else v :: warned left right flagged vs

/-- The warning about a variation. -/
def warning (v : Variation) : String :=
  if v.kind = .controlFlow then flowWarning else fallbackWarning v

/-- The warnings are those about the variations that are warned about. -/
theorem warningsOf_eq_map_warned (left right : Hints) (flagged : Bool) (vs : List Variation) :
    warningsOf left right flagged vs = (warned left right flagged vs).map warning := by
  induction vs generalizing flagged with
  | nil => rfl
  | cons v vs ih =>
    rw [warningsOf, warned]
    by_cases hflow : v.kind = .controlFlow
    · rw [if_pos hflow, if_pos hflow]
      split
      · exact ih true
      · rw [List.map_cons, warning, if_pos hflow, ih]
    · rw [if_neg hflow, if_neg hflow]
      split
      · exact ih flagged
      · rw [List.map_cons, warning, if_neg hflow, ih]

/-- The same variations are warned about from either side. -/
theorem warned_swapped (left right : Hints) (flagged : Bool) (vs : List Variation) :
    warned right left flagged (vs.map Variation.swapped) =
      (warned left right flagged vs).map Variation.swapped := by
  induction vs generalizing flagged with
  | nil => rfl
  | cons v vs ih =>
    rw [List.map_cons, warned, warned, unify_swapped, Variation.kind_swapped]
    by_cases hflow : v.kind = .controlFlow
    · rw [if_pos hflow, if_pos hflow]
      split
      · exact ih true
      · rw [List.map_cons, ih]
    · rw [if_neg hflow, if_neg hflow]
      split
      · exact ih flagged
      · rw [List.map_cons, ih]

/-- The variations that change the flow of control. -/
def flowing (vs : List Variation) : List Variation := vs.filter fun v ↦ v.kind = .controlFlow

/-- The same variations change the flow of control from either side. -/
theorem flowing_swapped (vs : List Variation) :
    flowing (vs.map Variation.swapped) = (flowing vs).map Variation.swapped :=
  List.filter_map

variable (left right : Hints) (vs : List Variation)

/-- Whether all variations can be parameters does not depend on the sides. -/
theorem safe_ofVariations_swapped :
    (ofVariations right left (vs.map Variation.swapped)).safe =
      (ofVariations left right vs).safe :=
  List.all_map

/-- The types of the parameters do not depend on the sides. -/
theorem parameters_ofVariations_swapped :
    (ofVariations right left (vs.map Variation.swapped)).parameters =
      (ofVariations left right vs).parameters := by
  simp only [ofVariations, List.zipIdx_map, List.filterMap_map]
  congr 1
  funext entry
  change (if entry.1.kind = .controlFlow then none else
    some (entry.2, (unify right left entry.1.swapped).getD universal)) = _
  rw [unify_swapped]

end Typing

/-! ### Comparisons -/

namespace Similarity

variable {α : Type} [Scalar α] (w : Weights α) (f g : Fragment)

/-- The structural score does not depend on the sides of an alignment. -/
theorem structuralScore_swapped (a : Alignment) :
    (structuralScore a.swapped : α) = structuralScore a := by
  rw [structuralScore, structuralScore, Alignment.length_matched_swapped]
  simp only [Alignment.swapped, List.isEmpty_map]

/-- The four scores do not depend on the order of the fragments. -/
theorem scores_compare_swap :
    (compare w g f).lcs = (compare w f g).lcs ∧
      (compare w g f).levenshtein = (compare w f g).levenshtein ∧
      (compare w g f).structural = (compare w f g).structural ∧
      (compare w g f).overall = (compare w f g).overall := by
  have hlongest : max g.length f.length = max f.length g.length := max_comm _ _
  have hdistance := EditDistance.distance_comm g.shapes f.shapes
  by_cases h : max f.length g.length = 0
  · simp only [compare, hlongest, if_pos h, and_self]
  · simp only [compare, hlongest, if_neg h, hdistance,
      Alignment.align_swap f.statements g.statements, Alignment.length_matched_swapped,
      structuralScore_swapped, and_self]

/-- The length of the first fragment is that of the second one from the other side. -/
theorem leftLength_compare_swap : (compare w g f).leftLength = (compare w f g).rightLength := by
  by_cases h : max f.length g.length = 0
  · have hswap : max g.length f.length = 0 := max_comm f.length g.length ▸ h
    simp only [compare, if_pos h, if_pos hswap]
    rfl
  · have hswap : ¬ max g.length f.length = 0 := max_comm f.length g.length ▸ h
    simp only [compare, if_neg h, if_neg hswap]

/-- The variations of a comparison turn with it, and keep their order. -/
theorem variations_compare_swap :
    (compare w g f).differences.variations =
      (compare w f g).differences.variations.map Variation.swapped := by
  rw [differences_compare, differences_compare, Alignment.align_swap f.statements]
  exact Differences.variations_along_swapped (Alignment.ascends_aligned_align _ _).pairwise _ _

/-- A mismatch is one from either side. -/
theorem mismatch_compare_swap :
    (compare w g f).differences.mismatch = (compare w f g).differences.mismatch := by
  rw [differences_compare, differences_compare, Alignment.align_swap f.statements]
  exact Differences.mismatch_along_swapped (Alignment.ascends_aligned_align _ _).pairwise _ _

/-- Whether control flows differently does not depend on the order of the fragments. -/
theorem diverts_compare_swap : (compare w g f).diverts = (compare w f g).diverts := by
  rw [diverts_compare, diverts_compare, Alignment.align_swap f.statements]
  exact Alignment.any_diverts_swapped (Alignment.ascends_aligned_align _ _).pairwise _ _

/-- Whether all variations can be parameters does not depend on the order of the fragments. -/
theorem safe_compare_swap : (compare w g f).typing.safe = (compare w f g).typing.safe := by
  rw [typing_compare, typing_compare, variations_compare_swap]
  exact Typing.safe_ofVariations_swapped f.hints g.hints _

/-- The types of the parameters do not depend on the order of the fragments. -/
theorem parameters_compare_swap :
    (compare w g f).typing.parameters = (compare w f g).typing.parameters := by
  rw [typing_compare, typing_compare, variations_compare_swap]
  exact Typing.parameters_ofVariations_swapped f.hints g.hints _

/-- Symmetry of alignment and comparison. Exchanging two lists of statements exchanges the sides of
their alignment. Exchanging two fragments keeps the scores, the verdicts and the types of the
parameters; the variations stay in order, each with its sides exchanged; and the warnings and
conflicts are about the same variations, with their sides exchanged. -/
theorem compare_swap :
    (∀ ss ts : List Statement, Alignment.align ts ss = (Alignment.align ss ts).swapped) ∧
    ∀ (w : Weights α) (f g : Fragment),
      let forth := compare w f g
      let back := compare w g f
      let variations := forth.differences.variations
      let warned := Typing.warned f.hints g.hints false variations
      let flowing := Typing.flowing variations
      (back.lcs = forth.lcs ∧ back.levenshtein = forth.levenshtein ∧
        back.structural = forth.structural ∧ back.overall = forth.overall) ∧
      back.leftLength = forth.rightLength ∧ back.rightLength = forth.leftLength ∧
      back.diverts = forth.diverts ∧
      back.canRefactor = forth.canRefactor ∧
      back.differences.mismatch = forth.differences.mismatch ∧
      back.differences.variations = variations.map Variation.swapped ∧
      back.typing.safe = forth.typing.safe ∧
      back.typing.parameters = forth.typing.parameters ∧
      (forth.typing.warnings = warned.map Typing.warning ∧
        back.typing.warnings = warned.map fun v ↦ Typing.warning v.swapped) ∧
      forth.typing.conflicts = flowing.map Typing.conflict ∧
        back.typing.conflicts = flowing.map fun v ↦ Typing.conflict v.swapped := by
  refine ⟨Alignment.align_swap, fun w f g ↦ ?_⟩
  have hvariations := variations_compare_swap w f g
  have hrefactor : (compare w g f).canRefactor = (compare w f g).canRefactor := by
    rw [canRefactor, canRefactor, safe_compare_swap, diverts_compare_swap]
  refine ⟨scores_compare_swap w f g, ?_, ?_, diverts_compare_swap w f g, hrefactor,
    mismatch_compare_swap w f g, hvariations, safe_compare_swap w f g,
    parameters_compare_swap w f g, ⟨?_, ?_⟩, ?_, ?_⟩
  · exact leftLength_compare_swap w f g
  · exact (leftLength_compare_swap w g f).symm
  · rw [typing_compare]
    exact Typing.warningsOf_eq_map_warned _ _ _ _
  · rw [typing_compare, hvariations]
    refine (Typing.warningsOf_eq_map_warned _ _ _ _).trans ?_
    rw [Typing.warned_swapped, List.map_map]
    rfl
  · rw [typing_compare]
    rfl
  · rw [typing_compare, hvariations]
    change (Typing.flowing _).map Typing.conflict = _
    rw [Typing.flowing_swapped, List.map_map]
    rfl

end Similarity

end NearClone
