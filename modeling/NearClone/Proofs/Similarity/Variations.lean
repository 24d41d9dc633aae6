import NearClone.Proofs.Alignment.Gap
import NearClone.Proofs.Similarity.Substitution
import Mathlib.Data.Prod.Lex

/-!
# What variations report

A variation reports either that control flows apart between two aligned statements, or that two
slots at the same place of statements of equal shape have different texts. The variations at a pair
of statements are the reports about it (`AlignedPair.mem_variations_iff`), in the order of the slots
(`AlignedPair.pairwise_variations`). Along an alignment whose pairs ascend on both sides the
variations therefore ascend by position and slot, from either side
(`Differences.pairwise_left_along`, `Differences.pairwise_right_along`).
`Similarity.exact_differences_compare` says of every comparison that its variations are sound,
complete and in order, and when something differs that they cannot express.
-/

set_option autoImplicit false
set_option relaxedAutoImplicit false

namespace NearClone

/-! ### Reports -/

/-- Control flows apart between two statements: one of them directs it, and their kinds differ. -/
def Statement.FlowsApart (s t : Statement) : Prop :=
  (s.isControlFlow = true ∨ t.isControlFlow = true) ∧ s.kind ≠ t.kind

/-- Control does not flow apart between two statements of equal shape, and both have slots at one
place, with different texts. -/
structure Statement.DifferInSlot (s t : Statement) (slot : ℕ) (a b : Slot) : Prop where
  not_flowsApart : ¬ s.FlowsApart t
  shape_eq : s.shape = t.shape
  left : s.slots[slot]? = some a
  right : t.slots[slot]? = some b
  text_ne : a.text ≠ b.text

/-- An alignment pairs two positions, where two lists have the statements `s` and `t`. -/
structure Alignment.Pairs (a : Alignment) (ss ts : List Statement) (i j : ℕ) (s t : Statement) :
    Prop where
  mem : (i, j) ∈ a.matched ++ a.substituted
  left : ss[i]? = some s
  right : ts[j]? = some t

namespace Variation

/-- The variation is about two texts in a slot of the statements at two positions. -/
structure IsAt (v : Variation) (i j slot : ℕ) (left right : String) : Prop where
  leftIndex : v.leftIndex = i
  rightIndex : v.rightIndex = j
  slot : v.slot = slot
  left : v.left = left
  right : v.right = right

/-- The variation reports that control flows apart at two positions; its texts are the kinds of the
statements. -/
structure ReportsFlow (v : Variation) (i j : ℕ) (s t : Statement) : Prop where
  flowsApart : s.FlowsApart t
  isAt : v.IsAt i j 0 s.kind t.kind
  kind : v.kind = .controlFlow
  inferred : v.inferred = none

/-- The variation has the kind of two slots: that of both if they agree on literals or types, and
else the kind of names. A type is inferred for literals alone, and only if their texts share it. -/
structure Classifies (v : Variation) (a b : Slot) : Prop where
  literal_iff : v.kind = .literal ↔ a.kind = .literal ∧ b.kind = .literal
  type_iff : v.kind = .type ↔ a.kind = .type ∧ b.kind = .type
  kind_ne : v.kind ≠ .controlFlow
  inferred_iff : ∀ name, v.inferred = some name ↔ v.kind = .literal ∧
    ∃ type, Literal.typeOf? a.text = some type ∧ Literal.typeOf? b.text = some type ∧
      type.name = name

/-- The variation reports that the texts of two slots differ. -/
structure ReportsSlot (v : Variation) (i j slot : ℕ) (a b : Slot) : Prop where
  isAt : v.IsAt i j slot a.text b.text
  classifies : v.Classifies a b

/-- The variation comes before another one by the position in the first list, then by the slot. -/
def LeftBefore (v w : Variation) : Prop :=
  toLex (v.leftIndex, v.slot) < toLex (w.leftIndex, w.slot)

/-- The variation comes before another one by the position in the second list, then by the slot. -/
def RightBefore (v w : Variation) : Prop :=
  toLex (v.rightIndex, v.slot) < toLex (w.rightIndex, w.slot)

end Variation

/-- Differences report exactly what differs between two lists along an alignment. -/
structure Differences.Exact (ss ts : List Statement) (a : Alignment) (d : Differences) : Prop where
  pairwise_left : d.variations.Pairwise Variation.LeftBefore
  pairwise_right : d.variations.Pairwise Variation.RightBefore
  sound : ∀ v ∈ d.variations, ∃ i j s t, a.Pairs ss ts i j s t ∧
    (v.ReportsFlow i j s t ∨ ∃ slot x y, s.DifferInSlot t slot x y ∧ v.ReportsSlot i j slot x y)
  flow : ∀ i j s t, a.Pairs ss ts i j s t → s.FlowsApart t →
    ∃! v, v ∈ d.variations ∧ v.ReportsFlow i j s t
  slot : ∀ i j s t, a.Pairs ss ts i j s t → ∀ slot x y, s.DifferInSlot t slot x y →
    ∃! v, v ∈ d.variations ∧ v.ReportsSlot i j slot x y
  mismatch_iff : d.mismatch = true ↔ a.leftOnly ≠ [] ∨ a.rightOnly ≠ [] ∨
    ∃ i j s t, a.Pairs ss ts i j s t ∧ ¬ s.FlowsApart t ∧
      (s.shape ≠ t.shape ∨ s.slots.length ≠ t.slots.length)

/-! ### The variations at a pair -/

/-- Two literals share a type exactly if both have it. -/
theorem Literal.commonType?_eq_some_iff {left right : String} {type : LiteralType} :
    commonType? left right = some type ↔ typeOf? left = some type ∧ typeOf? right = some type := by
  rw [commonType?]
  cases hleft : typeOf? left with
  | none => simp only [reduceCtorEq, false_and]
  | some t =>
    rw [Option.ite_none_right_eq_some, Option.some.injEq]
    constructor
    · rintro ⟨hright, rfl⟩
      exact ⟨rfl, hright⟩
    · rintro ⟨rfl, hright⟩
      exact ⟨hright, rfl⟩

/-- The kind of a difference between two slots is that of literals or types if both slots have it,
and never that of the flow of control. -/
theorem VariationKind.eq_ofSlots_iff (kind : VariationKind) (a b : SlotKind) :
    kind = ofSlots a b ↔ (kind = .literal ↔ a = .literal ∧ b = .literal) ∧
      (kind = .type ↔ a = .type ∧ b = .type) ∧ kind ≠ .controlFlow := by
  cases kind <;> cases a <;> cases b <;> decide

namespace AlignedPair

variable {i j slot : ℕ} {s t : Statement} {a b : Slot} {v : Variation}

/-- The variation at a slot is the report that its texts differ. -/
theorem slotVariation?_eq_some_iff :
    (AlignedPair.mk i j s t).slotVariation? a b slot = some v ↔
      a.text ≠ b.text ∧ v.ReportsSlot i j slot a b := by
  have hinferred (name : String) :
      (if VariationKind.ofSlots a.kind b.kind = .literal then
        (Literal.commonType? a.text b.text).map (·.name) else none) = some name ↔
      VariationKind.ofSlots a.kind b.kind = .literal ∧
        ∃ type, Literal.typeOf? a.text = some type ∧ Literal.typeOf? b.text = some type ∧
          type.name = name := by
    rw [Option.ite_none_right_eq_some, Option.map_eq_some_iff]
    simp only [Literal.commonType?_eq_some_iff, and_assoc]
  rw [slotVariation?]
  constructor
  · intro h
    split at h
    case isTrue => cases h
    case isFalse hne =>
      obtain rfl := Option.some.inj h
      obtain ⟨hliteral, htype, hkind⟩ := (VariationKind.eq_ofSlots_iff _ a.kind b.kind).mp rfl
      exact ⟨hne, ⟨rfl, rfl, rfl, rfl, rfl⟩, hliteral, htype, hkind, hinferred⟩
  · rintro ⟨hne, hat, hclassifies⟩
    have hkind : v.kind = VariationKind.ofSlots a.kind b.kind :=
      (VariationKind.eq_ofSlots_iff v.kind a.kind b.kind).mpr
        ⟨hclassifies.literal_iff, hclassifies.type_iff, hclassifies.kind_ne⟩
    have htype : v.inferred = if VariationKind.ofSlots a.kind b.kind = .literal then
        (Literal.commonType? a.text b.text).map (·.name) else none := by
      refine Option.ext fun name ↦ ?_
      rw [hclassifies.inferred_iff name, hinferred name, hkind]
    obtain ⟨hleftIndex, hrightIndex, hslot, hleft, hright⟩ := hat
    rw [if_neg hne, Option.some.injEq]
    cases v
    simp only at hkind htype hleftIndex hrightIndex hslot hleft hright
    rw [hkind, htype, hleftIndex, hrightIndex, hslot, hleft, hright]

/-- There is a variation at a slot whose texts differ. -/
theorem isSome_slotVariation? (p : AlignedPair) (slot : ℕ) (h : a.text ≠ b.text) :
    (p.slotVariation? a b slot).isSome = true := by
  rw [slotVariation?, if_neg h]
  rfl

/-- A report that control flows apart is the variation in the flow of control. -/
theorem reportsFlow_iff :
    v.ReportsFlow i j s t ↔ s.FlowsApart t ∧ v = (AlignedPair.mk i j s t).flowVariation := by
  constructor
  · rintro ⟨hflow, ⟨hleftIndex, hrightIndex, hslot, hleft, hright⟩, hkind, hinferred⟩
    refine ⟨hflow, ?_⟩
    cases v
    simp only at hkind hinferred hleftIndex hrightIndex hslot hleft hright
    rw [hkind, hinferred, hleftIndex, hrightIndex, hslot, hleft, hright]
    rfl
  · rintro ⟨hflow, rfl⟩
    exact ⟨hflow, ⟨rfl, rfl, rfl, rfl, rfl⟩, rfl, rfl⟩

/-- The variations between slots are the reports that texts differ in a slot of both statements. -/
theorem mem_slotVariations_iff :
    v ∈ (AlignedPair.mk i j s t).slotVariations ↔
      ∃ slot a b, s.slots[slot]? = some a ∧ t.slots[slot]? = some b ∧ a.text ≠ b.text ∧
        v.ReportsSlot i j slot a b := by
  constructor
  · intro hv
    obtain ⟨slot, a, b, ha, hb, hslot⟩ := exists_slots_of_mem_slotVariations hv
    exact ⟨slot, a, b, ha, hb, slotVariation?_eq_some_iff.mp hslot⟩
  · rintro ⟨slot, a, b, ha, hb, hreport⟩
    rw [slotVariations, List.mem_filterMap]
    refine ⟨((a, b), slot), ?_, slotVariation?_eq_some_iff.mpr hreport⟩
    rw [List.mk_mem_zipIdx_iff_getElem?, List.getElem?_zip_eq_some]
    exact ⟨ha, hb⟩

/-- The variations at a pair are the reports about it. -/
theorem mem_variations_iff :
    v ∈ (AlignedPair.mk i j s t).variations ↔
      v.ReportsFlow i j s t ∨
        ∃ slot a b, s.DifferInSlot t slot a b ∧ v.ReportsSlot i j slot a b := by
  have hdiverts : (AlignedPair.mk i j s t).diverts = true ↔ s.FlowsApart t :=
    Statement.divertsFrom_iff s t
  rw [reportsFlow_iff, variations]
  by_cases hflow : s.FlowsApart t
  · rw [if_pos (hdiverts.mpr hflow), List.mem_singleton]
    constructor
    · exact fun hv ↦ Or.inl ⟨hflow, hv⟩
    · rintro (hv | ⟨slot, a, b, hdiffer, -⟩)
      · exact hv.2
      · exact absurd hflow hdiffer.not_flowsApart
  · rw [if_neg (hdiverts.not.mpr hflow)]
    by_cases hshape : s.shape = t.shape
    · rw [if_pos hshape, mem_slotVariations_iff]
      constructor
      · rintro ⟨slot, a, b, ha, hb, hne, hreport⟩
        exact Or.inr ⟨slot, a, b, ⟨hflow, hshape, ha, hb, hne⟩, hreport⟩
      · rintro (hv | ⟨slot, a, b, hdiffer, hreport⟩)
        · exact absurd hv.1 hflow
        · exact ⟨slot, a, b, hdiffer.left, hdiffer.right, hdiffer.text_ne, hreport⟩
    · rw [if_neg hshape]
      constructor
      · exact fun hv ↦ absurd hv List.not_mem_nil
      · rintro (hv | ⟨slot, a, b, hdiffer, -⟩)
        · exact absurd hv.1 hflow
        · exact absurd hdiffer.shape_eq hshape

/-- A pair differs in a way that no variation expresses exactly if control does not flow apart and
the statements differ in shape or in the number of slots. -/
theorem mismatches_iff :
    (AlignedPair.mk i j s t).mismatches = true ↔
      ¬ s.FlowsApart t ∧ (s.shape ≠ t.shape ∨ s.slots.length ≠ t.slots.length) := by
  rw [mismatches, Bool.and_eq_true, Bool.not_eq_true', Bool.or_eq_true, decide_eq_true_eq,
    decide_eq_true_eq, ← Bool.not_eq_true]
  exact and_congr_left' (not_congr (Statement.divertsFrom_iff s t))

/-! ### The order of variations -/

/-- All variations at a pair are about its positions. -/
theorem leftIndex_of_mem_variations {p : AlignedPair} (h : v ∈ p.variations) :
    v.leftIndex = p.leftIndex := by
  rw [variations] at h
  split at h
  · rw [List.mem_singleton.mp h]
    rfl
  · split at h
    · obtain ⟨slot, a, b, -, -, hslot⟩ := exists_slots_of_mem_slotVariations h
      exact (of_slotVariation?_eq_some hslot).1
    · exact absurd h List.not_mem_nil

/-- The variations at a pair come in the order of the slots. -/
theorem pairwise_variations (p : AlignedPair) :
    p.variations.Pairwise fun v w ↦ v.slot < w.slot := by
  rw [variations]
  split
  · exact List.pairwise_singleton _ _
  · split
    · refine (Listing.pairwise_zipIdx _).filterMap _ fun e e' hlt v hv w hw ↦ ?_
      obtain ⟨-, -, hslot, -⟩ := of_slotVariation?_eq_some hv
      obtain ⟨-, -, hslot', -⟩ := of_slotVariation?_eq_some hw
      rw [hslot, hslot']
      exact Int.ofNat_lt.mpr hlt
    · exact List.Pairwise.nil

end AlignedPair

/-- The variations at pairs that ascend in the first list ascend by position, then by slot. -/
theorem AlignedPair.pairwise_flatMap_variations {pairs : List AlignedPair}
    (h : pairs.Pairwise fun p q ↦ p.leftIndex < q.leftIndex) :
    (pairs.flatMap variations).Pairwise Variation.LeftBefore := by
  rw [List.pairwise_flatMap]
  constructor
  · intro p _
    refine (pairwise_variations p).imp_of_mem fun hv hw hlt ↦ ?_
    rw [Variation.LeftBefore, Prod.Lex.toLex_lt_toLex]
    exact Or.inr ⟨(leftIndex_of_mem_variations hv).trans (leftIndex_of_mem_variations hw).symm, hlt⟩
  · refine h.imp fun hlt v hv w hw ↦ ?_
    rw [Variation.LeftBefore, Prod.Lex.toLex_lt_toLex]
    dsimp only
    rw [leftIndex_of_mem_variations hv, leftIndex_of_mem_variations hw]
    exact Or.inl hlt

/-- Some aligned pair has a property exactly if two paired positions have it with their
statements. -/
theorem Alignment.exists_mem_pairsOf_iff {a : Alignment} {ss ts : List Statement}
    {P : AlignedPair → Prop} :
    (∃ p ∈ a.pairsOf ss ts, P p) ↔ ∃ i j s t, a.Pairs ss ts i j s t ∧ P ⟨i, j, s, t⟩ := by
  constructor
  · rintro ⟨p, hp, hP⟩
    obtain ⟨i, j, s, t, hplace, hs, ht, rfl⟩ := mem_pairsOf.mp hp
    exact ⟨i, j, s, t, ⟨hplace, hs, ht⟩, hP⟩
  · rintro ⟨i, j, s, t, hpair, hP⟩
    exact ⟨_, mem_pairsOf.mpr ⟨i, j, s, t, hpair.mem, hpair.left, hpair.right, rfl⟩, hP⟩

/-- The statements of aligned positions that ascend on both sides do so. -/
theorem Alignment.pairwise_pairsOf {a : Alignment} (h : a.aligned.Pairwise Before)
    (ss ts : List Statement) :
    (a.pairsOf ss ts).Pairwise fun p q ↦ p.leftIndex < q.leftIndex := by
  refine h.filterMap _ fun q r hbefore p hp p' hp' ↦ ?_
  obtain ⟨s, -, hp⟩ := Option.bind_eq_some_iff.mp hp
  obtain ⟨t, -, hp⟩ := Option.bind_eq_some_iff.mp hp
  obtain ⟨s', -, hp'⟩ := Option.bind_eq_some_iff.mp hp'
  obtain ⟨t', -, hp'⟩ := Option.bind_eq_some_iff.mp hp'
  rw [← Option.some.inj hp, ← Option.some.inj hp']
  exact Int.ofNat_lt.mpr hbefore.1

namespace Differences

variable {a : Alignment} {ss ts : List Statement}

/-- The variations along an alignment ascend by the position in the first list, then by slot. -/
theorem pairwise_left_along (h : a.aligned.Pairwise Alignment.Before) :
    (along ss ts a).variations.Pairwise Variation.LeftBefore :=
  AlignedPair.pairwise_flatMap_variations (Alignment.pairwise_pairsOf h ss ts)

/-- The variations along an alignment ascend by the position in the second list, then by slot: seen
from there, they do so in the first one. -/
theorem pairwise_right_along (h : a.aligned.Pairwise Alignment.Before) :
    (along ss ts a).variations.Pairwise Variation.RightBefore := by
  have hswapped : a.swapped.aligned.Pairwise Alignment.Before := by
    rw [Alignment.aligned_swapped h, List.pairwise_map]
    exact h.imp And.symm
  have hleft : (along ts ss a.swapped).variations.Pairwise Variation.LeftBefore :=
    pairwise_left_along hswapped
  rw [variations_along_swapped h, List.pairwise_map] at hleft
  exact hleft

/-- The variations along an alignment are the reports about the pairs. -/
theorem mem_variations_along_iff {v : Variation} :
    v ∈ (along ss ts a).variations ↔ ∃ i j s t, a.Pairs ss ts i j s t ∧
      (v.ReportsFlow i j s t ∨
        ∃ slot x y, s.DifferInSlot t slot x y ∧ v.ReportsSlot i j slot x y) := by
  change v ∈ (a.pairsOf ss ts).flatMap AlignedPair.variations ↔ _
  rw [List.mem_flatMap, Alignment.exists_mem_pairsOf_iff]
  simp only [AlignedPair.mem_variations_iff]

/-- There is a mismatch along an alignment exactly if some position has no partner, or statements
between which control does not flow apart differ in shape or in the number of slots. -/
theorem mismatch_along_iff :
    (along ss ts a).mismatch = true ↔ a.leftOnly ≠ [] ∨ a.rightOnly ≠ [] ∨
      ∃ i j s t, a.Pairs ss ts i j s t ∧ ¬ s.FlowsApart t ∧
        (s.shape ≠ t.shape ∨ s.slots.length ≠ t.slots.length) := by
  rw [along, ofPairs, Bool.or_eq_true, Bool.or_eq_true, or_assoc, Bool.not_eq_true',
    Bool.not_eq_true', List.isEmpty_eq_false_iff, List.isEmpty_eq_false_iff, List.any_eq_true,
    Alignment.exists_mem_pairsOf_iff]
  simp only [AlignedPair.mismatches_iff]

/-- The differences along an alignment whose pairs ascend on both sides report exactly what differs
along it. -/
theorem exact_along (h : a.aligned.Pairwise Alignment.Before) :
    Exact ss ts a (along ss ts a) where
  pairwise_left := pairwise_left_along h
  pairwise_right := pairwise_right_along h
  sound _ hv := mem_variations_along_iff.mp hv
  flow i j s t hpair hflow := by
    have hreport := AlignedPair.reportsFlow_iff (i := i) (j := j).mpr ⟨hflow, rfl⟩
    refine ⟨_, ⟨mem_variations_along_iff.mpr ⟨i, j, s, t, hpair, Or.inl hreport⟩, hreport⟩, ?_⟩
    rintro v ⟨-, hv⟩
    exact (AlignedPair.reportsFlow_iff.mp hv).2
  slot i j s t hpair slot x y hdiffer := by
    obtain ⟨v, hv⟩ := Option.isSome_iff_exists.mp
      (AlignedPair.isSome_slotVariation? ⟨i, j, s, t⟩ slot hdiffer.text_ne)
    have hreport := (AlignedPair.slotVariation?_eq_some_iff.mp hv).2
    refine ⟨v, ⟨mem_variations_along_iff.mpr
      ⟨i, j, s, t, hpair, Or.inr ⟨slot, x, y, hdiffer, hreport⟩⟩, hreport⟩, ?_⟩
    rintro v' ⟨-, hv'⟩
    have hv' := AlignedPair.slotVariation?_eq_some_iff (s := s) (t := t).mpr ⟨hdiffer.text_ne, hv'⟩
    exact Option.some.inj (hv'.symm.trans hv)
  mismatch_iff := mismatch_along_iff

end Differences

namespace Similarity

variable {α : Type} [Scalar α]

/-- Comparisons report exactly what differs. The differences of two fragments are those found at the
positions that their alignment pairs, none of which is missing. The variations ascend strictly by
position and slot, from either side. There is one for every pair of statements between which control
flows apart, one for every slot in which other paired statements of equal shape have different
texts, and no other. There is a mismatch exactly if some position has no partner, or paired
statements between which control does not flow apart differ in shape or in the number of slots. -/
theorem exact_differences_compare (w : Weights α) (f g : Fragment) :
    let a := Alignment.align f.statements g.statements
    Differences.atPlaces f.statements g.statements
        ((a.matched ++ a.substituted).map Alignment.placesOf)
        (!a.leftOnly.isEmpty || !a.rightOnly.isEmpty) = .ok (compare w f g).differences ∧
      Differences.Exact f.statements g.statements a (compare w f g).differences := by
  intro a
  have hascends := Alignment.ascends_aligned_align f.statements g.statements
  rw [differences_compare]
  refine ⟨Alignment.atPlaces_aligned fun p hp ↦ (hascends.mem_bounds hp).2.2, ?_⟩
  exact Differences.exact_along hascends.pairwise

end Similarity

end NearClone
