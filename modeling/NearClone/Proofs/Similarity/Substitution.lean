import NearClone.Proofs.Alignment.Cover
import NearClone.Proofs.Similarity.Verdict
import Mathlib.Data.Rat.Init

/-!
# Variations as substitutions

Statements are alike if they can differ in the texts of their slots alone. A comparison finds
neither a mismatch nor a different flow of control exactly if the statements of the two fragments
are alike position by position (`Similarity.faultless_compare_iff`): the alignment then pairs every
statement with the one at its position. In that case the variations are a substitution of texts,
which turns the slots of the first fragment into those of the second (`Variation.putAll_zip`).
`Similarity.substitution_compare` puts both together.
-/

set_option autoImplicit false
set_option relaxedAutoImplicit false

namespace NearClone

/-! ### Statements that are alike -/

/-- Two statements can differ in the texts of their slots alone: they have the same shape and the
same number of slots, and neither directs control unless they are of the same kind. -/
structure Statement.Alike (s t : Statement) : Prop where
  shape_eq : s.shape = t.shape
  slots_length_eq : s.slots.length = t.slots.length
  same_flow : ¬ ((s.isControlFlow = true ∨ t.isControlFlow = true) ∧ s.kind ≠ t.kind)

/-- Control flows differently if one statement directs it and the kinds differ. -/
theorem Statement.divertsFrom_iff (s t : Statement) :
    s.divertsFrom t = true ↔
      (s.isControlFlow = true ∨ t.isControlFlow = true) ∧ s.kind ≠ t.kind := by
  rw [divertsFrom, Bool.and_eq_true, Bool.or_eq_true, decide_eq_true_eq]

namespace AlignedPair

/-- The statements of a pair are alike exactly if control flows alike and nothing else differs that
no variation expresses. -/
theorem alike_iff (p : AlignedPair) :
    p.left.Alike p.right ↔ p.mismatches = false ∧ p.diverts = false := by
  have hflow : p.diverts = false ↔
      ¬ ((p.left.isControlFlow = true ∨ p.right.isControlFlow = true) ∧
        p.left.kind ≠ p.right.kind) := by
    rw [← Statement.divertsFrom_iff, Bool.not_eq_true]
    rfl
  constructor
  · intro h
    have hdiverts := hflow.mpr h.same_flow
    refine ⟨?_, hdiverts⟩
    simp [mismatches, hdiverts, h.shape_eq, h.slots_length_eq]
  · rintro ⟨hmismatch, hdiverts⟩
    simp only [mismatches, hdiverts, Bool.not_false, Bool.true_and, Bool.or_eq_false_iff,
      decide_eq_false_iff_not, not_not, ne_eq] at hmismatch
    exact ⟨hmismatch.1, hmismatch.2, hflow.mp hdiverts⟩

/-- Two statements at the same position of their lists. -/
def sideBySide (entry : (Statement × Statement) × ℕ) : AlignedPair :=
  ⟨entry.2, entry.2, entry.1.1, entry.1.2⟩

end AlignedPair

/-- An alignment of every position with itself has the statements side by side. -/
theorem Alignment.pairsOf_of_diagonal {a : Alignment} {ss ts : List Statement}
    (hlength : ss.length = ts.length) (h : a.aligned = diagonalPairs ss.length) :
    a.pairsOf ss ts = (ss.zip ts).zipIdx.map AlignedPair.sideBySide := by
  have hdiagonal : diagonalPairs ss.length = (ss.zip ts).zipIdx.map fun entry ↦
      (entry.2, entry.2) := by
    have hplaces : (ss.zip ts).zipIdx.map Prod.snd = List.range ss.length := by
      rw [List.zipIdx_map_snd, List.length_zip, ← hlength, min_self, List.range_eq_range']
    rw [diagonalPairs, ← hplaces, List.map_map]
    rfl
  rw [pairsOf, h, hdiagonal, List.filterMap_map, ← List.filterMap_eq_map]
  refine List.filterMap_congr fun entry hentry ↦ ?_
  rw [List.mem_zipIdx_iff_getElem?, List.getElem?_zip_eq_some] at hentry
  simp only [Function.comp_apply, hentry.1, hentry.2]
  rfl

/-- A relation holds at all pairs of statements side by side exactly if it does position by
position. -/
theorem AlignedPair.forall_sideBySide_iff {ss ts : List Statement}
    {R : Statement → Statement → Prop} (hlength : ss.length = ts.length) :
    (∀ p ∈ (ss.zip ts).zipIdx.map sideBySide, R p.left p.right) ↔ List.Forall₂ R ss ts := by
  rw [List.forall₂_iff_zip]
  constructor
  · intro hall
    refine ⟨hlength, fun {s t} hmem ↦ ?_⟩
    obtain ⟨i, hi⟩ := List.mem_iff_getElem?.mp hmem
    have hentry : ((s, t), i) ∈ (ss.zip ts).zipIdx := List.mk_mem_zipIdx_iff_getElem?.mpr hi
    exact hall _ (List.mem_map_of_mem hentry)
  · rintro ⟨-, hall⟩ p hp
    obtain ⟨⟨⟨s, t⟩, i⟩, hentry, rfl⟩ := List.mem_map.mp hp
    exact hall (List.mem_of_getElem? (List.mk_mem_zipIdx_iff_getElem?.mp hentry))

/-! ### Comparisons without a fault -/

/-- Lists that are alike agree in all that statements agree in which are alike. -/
theorem Statement.map_eq_of_alike {γ : Type} {part : Statement → γ} {ss ts : List Statement}
    (hpart : ∀ {s t : Statement}, s.Alike t → part s = part t) (h : List.Forall₂ Alike ss ts) :
    ss.map part = ts.map part := by
  induction h with
  | nil => rfl
  | cons hfirst _ ih => rw [List.map_cons, List.map_cons, hpart hfirst, ih]

/-- Lists that are alike have equal shapes. -/
theorem Statement.shapes_eq_of_alike {ss ts : List Statement} (h : List.Forall₂ Alike ss ts) :
    ss.map (·.shape) = ts.map (·.shape) :=
  map_eq_of_alike Alike.shape_eq h

namespace Similarity

variable {α : Type} [Scalar α] {w : Weights α} {f g : Fragment}

/-- A comparison finds a variation in the flow of control exactly if control flows differently at
some pair. -/
theorem forall_variations_compare_iff (w : Weights α) (f g : Fragment) :
    (∀ v ∈ (compare w f g).differences.variations, v.kind ≠ .controlFlow) ↔
      (compare w f g).diverts = false := by
  have hsafe := safe_compare w f g
  rw [typing_compare, Typing.ofVariations] at hsafe
  rw [← Bool.not_eq_true', ← hsafe, List.all_eq_true]
  simp only [decide_eq_true_eq]

/-- The statements side by side are the pairs of a comparison of fragments that are alike. -/
theorem pairsOf_align_of_alike (h : List.Forall₂ Statement.Alike f.statements g.statements) :
    (Alignment.align f.statements g.statements).pairsOf f.statements g.statements =
      (f.statements.zip g.statements).zipIdx.map AlignedPair.sideBySide := by
  have hshapes := Statement.shapes_eq_of_alike h
  obtain ⟨hlength, hdiagonal⟩ := Alignment.aligned_align_eq_diagonal
    (Alignment.leftOnly_align_of_shapes_eq hshapes)
    (Alignment.rightOnly_align_of_shapes_eq hshapes)
  exact Alignment.pairsOf_of_diagonal hlength hdiagonal

/-- A comparison finds neither a mismatch nor a variation in the flow of control exactly if the
statements of the fragments are alike position by position. -/
theorem faultless_compare_iff (w : Weights α) (f g : Fragment) :
    ((compare w f g).differences.mismatch = false ∧
        ∀ v ∈ (compare w f g).differences.variations, v.kind ≠ .controlFlow) ↔
      List.Forall₂ Statement.Alike f.statements g.statements := by
  rw [forall_variations_compare_iff, diverts_compare, differences_compare]
  simp only [Differences.along, Differences.ofPairs, Bool.or_eq_false_iff, Bool.not_eq_false',
    List.isEmpty_iff, List.any_eq_false, Bool.not_eq_true]
  constructor
  · rintro ⟨⟨⟨hleft, hright⟩, hmismatch⟩, hdiverts⟩
    obtain ⟨hlength, hdiagonal⟩ := Alignment.aligned_align_eq_diagonal hleft hright
    rw [Alignment.pairsOf_of_diagonal hlength hdiagonal] at hmismatch hdiverts
    refine (AlignedPair.forall_sideBySide_iff hlength).mp fun p hp ↦ ?_
    exact p.alike_iff.mpr ⟨hmismatch p hp, hdiverts p hp⟩
  · intro h
    have hshapes := Statement.shapes_eq_of_alike h
    have hpairs := (AlignedPair.forall_sideBySide_iff h.length_eq).mpr h
    simp only [AlignedPair.alike_iff] at hpairs
    rw [pairsOf_align_of_alike h]
    exact ⟨⟨⟨Alignment.leftOnly_align_of_shapes_eq hshapes,
      Alignment.rightOnly_align_of_shapes_eq hshapes⟩, fun p hp ↦ (hpairs p hp).1⟩,
      fun p hp ↦ (hpairs p hp).2⟩

end Similarity

/-! ### Texts of slots -/

/-- The texts of the slots of a statement. -/
def Statement.texts (s : Statement) : List String := s.slots.map (·.text)

/-- The texts of the slots of a fragment, by statement. -/
def Fragment.texts (f : Fragment) : List (List String) := f.statements.map Statement.texts

namespace Variation

/-- The texts of a statement with the right text of a variation in its slot. -/
def putInRow (row : List String) (v : Variation) : List String := row.set v.slot.toNat v.right

/-- The texts of the left fragment with the right text of a variation in the slot that it is
about. -/
def putIn (texts : List (List String)) (v : Variation) : List (List String) :=
  texts.modify v.leftIndex.toNat fun row ↦ v.putInRow row

/-- The texts of the left fragment with the right texts of all variations put in. -/
def putAll (vs : List Variation) (texts : List (List String)) : List (List String) :=
  vs.foldl putIn texts

/-- The left text of a variation stands in the slot that the variation is about. -/
def StandsIn (v : Variation) (texts : List (List String)) : Prop :=
  ∃ i slot : ℕ, v.leftIndex = i ∧ v.slot = slot ∧
    ∃ row, texts[i]? = some row ∧ row[slot]? = some v.left

/-- To change the element behind a list of so many changes that element alone. -/
theorem modify_length_append {β : Type} (before : List β) (x : β) (rest : List β) (change : β → β) :
    (before ++ x :: rest).modify before.length change = before ++ change x :: rest := by
  rw [List.modify_eq_take_drop, List.take_left, List.drop_left]
  rfl

/-- Variations may be put in part by part. -/
theorem putAll_append (vs ws : List Variation) (texts : List (List String)) :
    putAll (vs ++ ws) texts = putAll ws (putAll vs texts) :=
  List.foldl_append

/-- Variations at one statement change the texts of that statement alone. -/
theorem putAll_of_leftIndex_eq {i : ℕ} {vs : List Variation} (h : ∀ v ∈ vs, v.leftIndex = i)
    (texts : List (List String)) :
    putAll vs texts = texts.modify i fun row ↦ vs.foldl putInRow row := by
  induction vs generalizing texts with
  | nil => exact (List.modify_id i texts).symm
  | cons v vs ih =>
    have hfirst : putIn texts v = texts.modify i fun row ↦ v.putInRow row := by
      rw [putIn, h v List.mem_cons_self, Int.toNat_natCast]
    have hrest := ih (fun u hu ↦ h u (List.mem_cons_of_mem v hu)) (putIn texts v)
    rw [putAll, List.foldl_cons]
    refine hrest.trans ?_
    rw [hfirst, List.modify_modify_eq]
    rfl

end Variation

namespace AlignedPair

variable {p : AlignedPair} {v : Variation}

/-- A variation at a slot is about that slot, and has the two texts that stand there. -/
theorem of_slotVariation?_eq_some {a b : Slot} {slot : ℕ}
    (h : p.slotVariation? a b slot = some v) :
    v.leftIndex = p.leftIndex ∧ v.rightIndex = p.rightIndex ∧ v.slot = slot ∧
      v.left = a.text ∧ v.right = b.text := by
  rw [slotVariation?] at h
  split at h
  · cases h
  · obtain rfl := Option.some.inj h
    exact ⟨rfl, rfl, rfl, rfl, rfl⟩

/-- A variation between slots is that at a slot which both statements have. -/
theorem exists_slots_of_mem_slotVariations (h : v ∈ p.slotVariations) :
    ∃ (slot : ℕ) (a b : Slot), p.left.slots[slot]? = some a ∧ p.right.slots[slot]? = some b ∧
      p.slotVariation? a b slot = some v := by
  rw [slotVariations, List.mem_filterMap] at h
  obtain ⟨⟨⟨a, b⟩, slot⟩, hentry, hv⟩ := h
  rw [List.mk_mem_zipIdx_iff_getElem?, List.getElem?_zip_eq_some] at hentry
  exact ⟨slot, a, b, hentry.1, hentry.2, hv⟩

/-- Putting in the variations between slots turns the texts of the left slots into those of the
right ones, whatever texts stand before. -/
theorem foldl_putInRow_zip (p : AlignedPair) (before : List String) {as bs : List Slot}
    (h : as.length = bs.length) :
    (((as.zip bs).zipIdx before.length).filterMap fun entry ↦
      p.slotVariation? entry.1.1 entry.1.2 entry.2).foldl Variation.putInRow
        (before ++ as.map (·.text)) = before ++ bs.map (·.text) := by
  induction as generalizing before bs with
  | nil =>
    rw [List.length_nil, eq_comm, List.length_eq_zero_iff] at h
    rw [h]
    rfl
  | cons a as ih =>
    cases bs with
    | nil => exact absurd h (Nat.succ_ne_zero _)
    | cons b bs =>
      -- After the first slot the text of its right side stands before the others.
      have hrest := ih (before ++ [b.text]) (Nat.succ.inj h)
      rw [List.length_append, List.length_singleton, List.append_assoc, List.append_assoc]
        at hrest
      rw [List.zip_cons_cons, List.zipIdx_cons, List.filterMap_cons, List.map_cons, List.map_cons]
      cases hv : p.slotVariation? a b before.length with
      | none =>
        have htext : a.text = b.text := by
          by_contra hne
          rw [slotVariation?, if_neg hne] at hv
          cases hv
        rw [htext]
        exact hrest
      | some v =>
        obtain ⟨-, -, hslot, -, hright⟩ := of_slotVariation?_eq_some hv
        have hput : Variation.putInRow (before ++ a.text :: as.map (·.text)) v =
            before ++ b.text :: as.map (·.text) := by
          rw [Variation.putInRow, hslot, hright, Int.toNat_natCast,
            List.set_append_right before.length b.text (Nat.le_refl _), Nat.sub_self]
          rfl
        rw [List.foldl_cons, hput]
        exact hrest

/-- Putting in the variations between the slots of two statements turns the texts of the one into
those of the other. -/
theorem foldl_putInRow_slotVariations (h : p.left.slots.length = p.right.slots.length) :
    p.slotVariations.foldl Variation.putInRow p.left.texts = p.right.texts :=
  foldl_putInRow_zip p [] h

end AlignedPair

namespace Variation

/-- Putting in the variations of statements that are alike turns the texts of the left ones into
those of the right ones, whatever statements stand before. -/
theorem putAll_zip (before : List (List String)) {ss ts : List Statement}
    (h : List.Forall₂ Statement.Alike ss ts) :
    putAll (((ss.zip ts).zipIdx before.length).flatMap fun entry ↦
        (AlignedPair.sideBySide entry).slotVariations) (before ++ ss.map Statement.texts) =
      before ++ ts.map Statement.texts := by
  induction h generalizing before with
  | nil => rfl
  | @cons s t ss ts halike _ ih =>
    have hrest := ih (before ++ [t.texts])
    rw [List.length_append, List.length_singleton, List.append_assoc, List.append_assoc] at hrest
    have hplace : ∀ v ∈ (AlignedPair.sideBySide ((s, t), before.length)).slotVariations,
        v.leftIndex = before.length := by
      intro v hv
      obtain ⟨slot, a, b, -, -, hslot⟩ := AlignedPair.exists_slots_of_mem_slotVariations hv
      exact (AlignedPair.of_slotVariation?_eq_some hslot).1
    have hrow := AlignedPair.foldl_putInRow_slotVariations
      (p := AlignedPair.sideBySide ((s, t), before.length)) halike.slots_length_eq
    have hmodify := modify_length_append before (s.texts) (ss.map Statement.texts) fun row ↦
      (AlignedPair.sideBySide ((s, t), before.length)).slotVariations.foldl putInRow row
    rw [List.zip_cons_cons, List.zipIdx_cons, List.flatMap_cons, putAll_append,
      putAll_of_leftIndex_eq hplace, List.map_cons, List.map_cons, hmodify]
    change putAll _ (before ++ List.foldl putInRow
      (AlignedPair.sideBySide ((s, t), before.length)).left.texts _ :: _) = _
    rw [hrow]
    exact hrest

end Variation

/-! ### Comparisons as substitutions -/

namespace Similarity

variable {α : Type} [Scalar α] {w : Weights α} {f g : Fragment}

/-- The variations of fragments that are alike are those between slots, statement by statement. -/
theorem variations_compare_of_alike
    (h : List.Forall₂ Statement.Alike f.statements g.statements) :
    (compare w f g).differences.variations =
      (f.statements.zip g.statements).zipIdx.flatMap fun entry ↦
        (AlignedPair.sideBySide entry).slotVariations := by
  have hpairs := (AlignedPair.forall_sideBySide_iff h.length_eq).mpr h
  rw [differences_compare]
  change List.flatMap AlignedPair.variations (Alignment.pairsOf _ _ _) = _
  rw [pairsOf_align_of_alike h, List.flatMap_map]
  refine List.flatMap_congr fun entry hentry ↦ ?_
  have halike := hpairs _ (List.mem_map_of_mem hentry)
  have hflow : ¬ (AlignedPair.sideBySide entry).diverts = true := by
    rw [((AlignedPair.alike_iff _).mp halike).2]
    exact Bool.false_ne_true
  rw [AlignedPair.variations, if_neg hflow, if_pos halike.shape_eq]

/-- The left text of every variation of fragments that are alike stands in the left fragment. -/
theorem standsIn_of_mem_variations_compare
    (h : List.Forall₂ Statement.Alike f.statements g.statements) {v : Variation}
    (hv : v ∈ (compare w f g).differences.variations) : v.StandsIn f.texts := by
  rw [variations_compare_of_alike h] at hv
  obtain ⟨⟨⟨s, t⟩, i⟩, hentry, hv⟩ := List.mem_flatMap.mp hv
  obtain ⟨slot, a, b, ha, -, hslot⟩ := AlignedPair.exists_slots_of_mem_slotVariations hv
  obtain ⟨hindex, -, hplace, hleft, -⟩ := AlignedPair.of_slotVariation?_eq_some hslot
  rw [List.mk_mem_zipIdx_iff_getElem?, List.getElem?_zip_eq_some] at hentry
  refine ⟨i, slot, hindex, hplace, s.texts, ?_, ?_⟩
  · rw [Fragment.texts, List.getElem?_map, hentry.1]
    rfl
  · rw [Statement.texts, List.getElem?_map, hleft]
    exact congrArg (Option.map (·.text)) ha

/-- Putting in the variations of fragments that are alike turns the texts of the one into those of
the other. -/
theorem putAll_variations_compare (w : Weights α)
    (h : List.Forall₂ Statement.Alike f.statements g.statements) :
    Variation.putAll (compare w f g).differences.variations f.texts = g.texts := by
  rw [variations_compare_of_alike h]
  exact Variation.putAll_zip [] h

/-- Variations are a faithful substitution. A comparison finds neither a mismatch nor a variation in
the flow of control exactly if the two fragments have the same number of statements, and at every
position statements of the same shape and the same number of slots that direct control alike. In
that case the left text of every variation stands in its slot of the first fragment, putting the
right texts there instead gives the texts of the second fragment, and without a variation the texts
are the same. -/
theorem substitution_compare (w : Weights α) (f g : Fragment) :
    let differences := (compare w f g).differences
    ((differences.mismatch = false ∧ ∀ v ∈ differences.variations, v.kind ≠ .controlFlow) ↔
      List.Forall₂ Statement.Alike f.statements g.statements) ∧
    (List.Forall₂ Statement.Alike f.statements g.statements →
      (∀ v ∈ differences.variations, v.StandsIn f.texts) ∧
      Variation.putAll differences.variations f.texts = g.texts ∧
      (differences.variations = [] → f.texts = g.texts)) := by
  intro differences
  refine ⟨faultless_compare_iff w f g, fun h ↦ ⟨?_, putAll_variations_compare w h, ?_⟩⟩
  · intro v hv
    exact standsIn_of_mem_variations_compare h hv
  · intro hnone
    have hput := putAll_variations_compare w h
    rwa [show (compare w f g).differences.variations = [] from hnone] at hput

/-- A call and a return whose slots differ in one name and one literal: the variations found between
them put the texts of the second fragment in. -/
theorem substitution_compare_call :
    let fragment : String → String → Fragment := fun name literal ↦
      { statements :=
          [{ shape := "call", kind := "expression", slots := [⟨.identifier, name⟩] },
            { shape := "return", kind := "return",
              slots := [⟨.identifier, "total"⟩, ⟨.literal, literal⟩] }]
        location := ⟨"main", ⟨1, 2, 1, 1⟩⟩ }
    let f := fragment "load" "1"
    let g := fragment "save" "2"
    let variations := (compare Weights.balanced f g : Similarity ℚ).differences.variations
    List.Forall₂ Statement.Alike f.statements g.statements ∧
      (∀ v ∈ variations, v.kind ≠ .controlFlow) ∧
      Variation.putAll variations [["load"], ["total", "1"]] = [["save"], ["total", "2"]] := by
  intro fragment f g variations
  have halike : List.Forall₂ Statement.Alike f.statements g.statements :=
    .cons ⟨rfl, rfl, by decide⟩ (.cons ⟨rfl, rfl, by decide⟩ .nil)
  obtain ⟨hfaultless, hsubstitution⟩ := substitution_compare (Weights.balanced : Weights ℚ) f g
  exact ⟨halike, (hfaultless.mpr halike).2, (hsubstitution halike).2.1⟩

end Similarity

end NearClone
