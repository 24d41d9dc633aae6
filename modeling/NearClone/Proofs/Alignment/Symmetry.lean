import NearClone.Proofs.Alignment.Align

/-!
# Alignments from either side

Aligning is always directed from the list that comes first in the order of lists, whichever is named
first. That order turns around with the lists (`compareLists_swap`), and lists that compare equal
have equal outlines (`outlines_eq_of_compareLists_eq`), so that their alignment is that of a list
with itself and looks the same from both sides (`swapped_directed_self`). Hence exchanging the lists
exchanges the two sides of the alignment and changes nothing else (`align_swap`).
-/

set_option autoImplicit false
set_option relaxedAutoImplicit false

namespace NearClone

/-! ### The order of lists of statements -/

/-- Slots are compared alike from either side. -/
instance Slot.orientedCmp_compare : Std.OrientedCmp Slot.compare :=
  inferInstanceAs (Std.OrientedCmp
    (compareLex (compareOn fun a : Slot ↦ a.kind.name) (compareOn fun a : Slot ↦ a.text)))

namespace Statement

/-- The slots of statements are compared alike from either side. -/
instance orientedCmp_slots :
    Std.OrientedCmp fun s t : Statement ↦ List.compareLex Slot.compare s.slots t.slots where
  eq_swap := (inferInstance : Std.OrientedCmp (List.compareLex Slot.compare)).eq_swap

/-- Statements are compared alike from either side. -/
instance orientedCmp_compare : Std.OrientedCmp Statement.compare :=
  inferInstanceAs (Std.OrientedCmp
    (compareLex (compareOn fun s : Statement ↦ s.shape) <|
      compareLex (compareOn fun s : Statement ↦ s.fineShape) <|
        compareLex (compareOn fun s : Statement ↦ s.kind) <|
          compareLex (compareOn fun s : Statement ↦ s.text)
            fun s t ↦ List.compareLex Slot.compare s.slots t.slots))

/-- Exchanging two lists of statements turns their comparison around. -/
theorem compareLists_swap (ss ts : List Statement) :
    compareLists ts ss = (compareLists ss ts).swap :=
  (inferInstance : Std.OrientedCmp (List.compareLex Statement.compare)).eq_swap

/-- Statements that compare equal have equal outlines. -/
theorem outline_eq_of_compare_eq {s t : Statement} (h : Statement.compare s t = .eq) :
    s.outline = t.outline := by
  simp only [Statement.compare, compareLex_eq_eq, compareOn, Std.LawfulEqOrd.compare_eq_iff_eq] at h
  exact Prod.ext h.1 h.2.1

/-- Lists that compare equal have equal outlines. -/
theorem outlines_eq_of_compareLists_eq {ss ts : List Statement} (h : compareLists ss ts = .eq) :
    ss.map outline = ts.map outline := by
  induction ss generalizing ts with
  | nil =>
    cases ts with
    | nil => rfl
    | cons t ts => exact Ordering.noConfusion h
  | cons s ss ih =>
    cases ts with
    | nil => exact Ordering.noConfusion h
    | cons t ts =>
      rw [compareLists, List.compareLex_cons_cons, Ordering.then_eq_eq] at h
      rw [List.map_cons, List.map_cons, outline_eq_of_compare_eq h.1, ih h.2]

end Statement

namespace Alignment

/-! ### Gaps and trails from the other side -/

/-- A gap seen from the second list. -/
def Gap.swapped (g : Gap) : Gap := ⟨g.rightStart, g.rightEnd, g.leftStart, g.leftEnd⟩

@[simp]
theorem Gap.paired_swapped (g : Gap) : g.swapped.paired = g.paired.map Prod.swap :=
  (List.zip_swap g.left g.right).symm

/-- A trail seen from the second list. -/
def Trail.swapped (t : Trail) : Trail := { t with chain := t.chain.map Prod.swap }

/-- A chain leaves the same gaps on either side. -/
theorem gaps_swap (n m i j : ℕ) (chain : List (ℕ × ℕ)) :
    gaps m n j i (chain.map Prod.swap) = (gaps n m i j chain).map Gap.swapped := by
  induction chain generalizing i j with
  | nil => rfl
  | cons p rest ih => exact congrArg _ (ih (p.1 + 1) (p.2 + 1))

/-- The alignment of a trail seen from the second list is that of the trail seen from there. -/
theorem swapped_ofTrail (n m : ℕ) (trail : Trail) :
    (ofTrail n m trail).swapped = ofTrail m n trail.swapped := by
  have hgaps := gaps_swap n m 0 0 trail.chain.reverse
  simp only [ofTrail, swapped, Trail.swapped, ← List.map_reverse, hgaps, List.flatMap_map,
    List.map_flatMap, Gap.paired_swapped]
  rfl

/-- The diagonal looks the same from both sides. -/
@[simp]
theorem swapped_diagonal (n : ℕ) : (diagonal n).swapped = diagonal n := by
  induction n with
  | zero => rfl
  | succ n ih =>
    have hchain : (diagonal n).chain.map Prod.swap = (diagonal n).chain := congrArg Trail.chain ih
    simp only [diagonal, Trail.extend, Trail.swapped, List.map_cons, hchain]
    rfl

/-- Lists of equal outlines have the same directed alignments. -/
theorem directed_congr {ss ss' ts ts' : List Statement}
    (hs : ss.map Statement.outline = ss'.map Statement.outline)
    (ht : ts.map Statement.outline = ts'.map Statement.outline) :
    directed ss ts = directed ss' ts' := by
  have hsLength : ss.length = ss'.length := by
    simpa using congrArg List.length hs
  have htLength : ts.length = ts'.length := by
    simpa using congrArg List.length ht
  have hsReverse : ss.reverse.map Statement.outline = ss'.reverse.map Statement.outline := by
    rw [List.map_reverse, List.map_reverse, hs]
  have htReverse : ts.reverse.map Statement.outline = ts'.reverse.map Statement.outline := by
    rw [List.map_reverse, List.map_reverse, ht]
  rw [directed, directed, hsLength, htLength, bestTrail_congr hsReverse htReverse]

/-- The alignment of a list with itself looks the same from both sides. -/
theorem swapped_directed_self (ss : List Statement) :
    (directed ss ss).swapped = directed ss ss := by
  rw [directed, bestTrail_self, swapped_ofTrail, swapped_diagonal]

/-- Between lists that compare equal the direction of the alignment does not matter. -/
theorem directed_swap_of_compareLists_eq {ss ts : List Statement}
    (h : Statement.compareLists ss ts = .eq) : directed ts ss = (directed ss ts).swapped := by
  have houtline := Statement.outlines_eq_of_compareLists_eq h
  have hback : directed ts ss = directed ss ss := directed_congr houtline.symm rfl
  have hforth : directed ss ts = directed ss ss := directed_congr rfl houtline.symm
  rw [hback, hforth, swapped_directed_self]

/-- Lists of equal outlines are aligned as a list is with itself. -/
theorem align_eq_directed_self {ss ts : List Statement}
    (h : ss.map Statement.outline = ts.map Statement.outline) : align ss ts = directed ss ss := by
  rcases align_eq_or_eq ss ts with halign | halign
  · rw [halign, directed_congr rfl h.symm]
  · rw [halign, directed_congr h.symm rfl, swapped_directed_self]

/-- Exchanging two lists exchanges the sides of their alignment. -/
theorem align_swap (ss ts : List Statement) : align ts ss = (align ss ts).swapped := by
  have hswap := Statement.compareLists_swap ss ts
  unfold align
  cases hcompare : Statement.compareLists ss ts with
  | lt =>
    rw [hswap, hcompare]
    rfl
  | eq =>
    rw [hswap, hcompare]
    exact directed_swap_of_compareLists_eq hcompare
  | gt =>
    rw [hswap, hcompare]
    exact (swapped_swapped _).symm

end Alignment

end NearClone
