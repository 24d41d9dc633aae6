import NearClone.Proofs.Number.Exact
import NearClone.Proofs.Similarity.Compare
import NearClone.Proofs.Source.Order
import NearClone.Proofs.Survey.Report
import Mathlib.Data.List.Sym

/-!
# The clone pairs of a report

A scan meets every two fragments once. Pair by pair and row by row its clone pairs are at some of
all pairs of locations, and there are no more of them than comparisons (`within_scanRow`,
`within_scanRows`).

A score that is at least the threshold is a number, and clone pairs of equal score are told apart by
their locations. So a report lists its clone pairs in a strict order (`pairwise_sortBy_scanRows`),
and in that order they are determined by which ones they are (`ClonePair.eq_of_mem_iff`).
-/

set_option autoImplicit false
set_option relaxedAutoImplicit false

namespace NearClone

variable {α : Type}

namespace ClonePair

/-- The two locations of a pair, in no order. -/
def places (p : ClonePair α) : Sym2 Location := s(p.left.location, p.right.location)

end ClonePair

/-! ### Pairs and comparisons -/

/-- The clone pairs of a scan are at some of the given pairs of locations, and there are no more of
them than comparisons, of which there are no more than the bound. -/
structure Scan.Within (scan : Scan α) (places : List (Sym2 Location)) (bound : ℕ) : Prop where
  sublist : (scan.accepted.map ClonePair.places).Sublist places
  accepted_le : scan.accepted.length ≤ scan.compared
  compared_le : scan.compared ≤ bound

namespace Scan.Within

variable {a b : Scan α} {places places' : List (Sym2 Location)} {bound bound' : ℕ}

/-- A scan that has compared nothing is within all bounds. -/
theorem empty (places : List (Sym2 Location)) (bound : ℕ) (truncated : Bool) :
    ({ truncated } : Scan α).Within places bound :=
  ⟨List.nil_sublist _, Nat.le_refl _, Nat.zero_le _⟩

/-- The bounds of two scans together are bounds of one after the other. -/
theorem append (ha : a.Within places bound) (hb : b.Within places' bound') :
    (a.append b).Within (places ++ places') (bound + bound') where
  sublist := by
    rw [Scan.append, List.map_append]
    exact ha.sublist.append hb.sublist
  accepted_le := by
    rw [Scan.append, List.length_append]
    exact Nat.add_le_add ha.accepted_le hb.accepted_le
  compared_le := Nat.add_le_add ha.compared_le hb.compared_le

/-- Bounds may be widened. -/
theorem mono (ha : a.Within places bound) (hplaces : places.Sublist places')
    (hbound : bound ≤ bound') : a.Within places' bound' :=
  ⟨ha.sublist.trans hplaces, ha.accepted_le, ha.compared_le.trans hbound⟩

end Scan.Within

namespace Survey

variable [Scalar α] {s : Survey α} {w : Watch α} {f : Fragment} {fs gs : List Fragment}
  {reads : ℕ}

/-- A judged pair is at the locations of its fragments, and was compared once. -/
theorem within_judge (s : Survey α) (f g : Fragment) (similarity : Similarity α) :
    (s.judge f g similarity).Within [s(f.location, g.location)] 1 := by
  have hsublist : ((s.judge f g similarity).accepted.map ClonePair.places).Sublist
      [s(f.location, g.location)] := by
    rw [judge]
    split
    · exact List.Sublist.refl _
    · exact List.nil_sublist _
  have hlength := hsublist.length_le
  rw [List.length_map] at hlength
  exact ⟨hsublist, hlength, Nat.le_refl 1⟩

/-- A row meets its fragment with each of those behind it once. -/
theorem within_scanRow {row : Scan α} (hrow : (s.scanRow w f gs reads).1 = .ok row) :
    row.Within (gs.map fun g ↦ s(f.location, g.location)) gs.length := by
  refine scanRow_induction (motive := fun gs row ↦
    row.Within (gs.map fun g ↦ s(f.location, g.location)) gs.length) ?_ ?_ ?_ ?_ hrow
  · exact Scan.Within.empty _ _ false
  · intro g rest reads _
    exact Scan.Within.empty _ _ true
  · intro g rest row _ ih
    exact ih.mono (List.sublist_cons_self _ _) (Nat.le_succ _)
  · intro g rest similarity row _ _ ih
    rw [List.length_cons, Nat.add_comm]
    exact (within_judge s f g similarity).append ih

/-- A scan meets every two fragments once. -/
theorem within_scanRows {scan : Scan α} (hscan : (s.scanRows w fs reads).1 = .ok scan) :
    scan.Within (fs.map (·.location)).sym2 (fs.length.choose 2) := by
  refine scanRows_induction (motive := fun fs scan ↦
    scan.Within (fs.map (·.location)).sym2 (fs.length.choose 2)) ?_ ?_ hscan
  · exact Scan.Within.empty _ _ false
  · intro f rest reads row tail hrow ih
    refine ((within_scanRow hrow).append ih).mono ?_ ?_
    · rw [List.map_cons, List.sym2, List.map_cons, List.map_map]
      exact (List.sublist_cons_self _ _).append (List.Sublist.refl _)
    · rw [List.length_cons, Nat.choose_succ_succ, Nat.choose_one_right]

/-- Fragments at different locations make pairs at different pairs of locations. -/
theorem nodup_places_scanRows (hfs : (fs.map (·.location)).Nodup) {scan : Scan α}
    (hscan : (s.scanRows w fs reads).1 = .ok scan) :
    (scan.accepted.map ClonePair.places).Nodup :=
  hfs.sym2.sublist (within_scanRows hscan).sublist

/-- A pair that was compared has a score of at least the threshold. -/
theorem Compared.threshold_le {p : ClonePair α} (h : s.Compared fs p) :
    s.config.threshold ≤ p.similarity.overall :=
  (Config.accepts_iff.mp h.accepts).1

end Survey

/-! ### The order of clone pairs -/

namespace ClonePair

variable [Scalar α]

/-- Pairs that compare equal are at the same locations. -/
theorem places_eq_of_compareScore_eq {p q : ClonePair α} (h : p.compareScore q = .eq) :
    p.places = q.places := by
  obtain ⟨-, hrest⟩ := compareLex_eq_eq.mp h
  obtain ⟨hleft, hright⟩ := compareLex_eq_eq.mp hrest
  rw [places, places, Fragment.compareReading_eq_eq_iff.mp hleft, Location.eq_of_compare_eq hright]

/-- The clone pairs with a score of at least some number. -/
abbrev ScoredFrom (least : α) : Type := {p : ClonePair α // least ≤ p.similarity.overall}

variable (hα : Scalar.Ordered α) {least : α} {pairs pairs' : List (ClonePair α)}

include hα

/-- Clone pairs with scores of at least some number are compared transitively. -/
theorem transCmp_compareScore (least : α) :
    Std.TransCmp fun p q : ScoredFrom least ↦ p.val.compareScore q.val := by
  have hscore : Std.TransCmp fun p q : ScoredFrom least ↦
      Scalar.compare q.val.similarity.overall p.val.similarity.overall :=
    { eq_swap := hα.swap_compare _ _
      isLE_trans := by
        intro p q r hpq hqr
        rw [hα.isLE_compare_iff] at hpq hqr ⊢
        exact hα.not_lt_trans q.property hqr hpq }
  have hleft : Std.TransCmp fun p q : ScoredFrom least ↦
      p.val.left.compareReading q.val.left :=
    Listing.transCmp_on Fragment.compareReading fun p : ScoredFrom least ↦ p.val.left
  have hright : Std.TransCmp fun p q : ScoredFrom least ↦
      p.val.right.location.compare q.val.right.location :=
    Listing.transCmp_on Location.compare fun p : ScoredFrom least ↦ p.val.right.location
  exact inferInstanceAs (Std.TransCmp (compareLex _ (compareLex _ _)))

/-- Clone pairs with scores of at least some number, no two of them at the same locations, are
sorted into a strict order. -/
theorem pairwise_sortBy (hleast : ∀ p ∈ pairs, least ≤ p.similarity.overall)
    (hplaces : (pairs.map places).Nodup) :
    (Listing.sortBy compareScore pairs).Pairwise fun p q ↦ p.compareScore q = .lt := by
  refine Listing.pairwise_lt_sortBy_of_forall (transCmp_compareScore hα least) hleast
    ((List.pairwise_map.mp hplaces).imp ?_)
  intro p q hne hequal
  exact hne (places_eq_of_compareScore_eq hequal)

/-- Clone pairs in a strict order are determined by which ones they are. -/
theorem eq_of_mem_iff (hleast : ∀ p ∈ pairs, least ≤ p.similarity.overall)
    (hpairs : pairs.Pairwise fun p q ↦ p.compareScore q = .lt)
    (hpairs' : pairs'.Pairwise fun p q ↦ p.compareScore q = .lt)
    (hmem : ∀ p, p ∈ pairs ↔ p ∈ pairs') : pairs = pairs' := by
  have hcmp := transCmp_compareScore hα least
  refine Listing.eq_of_pairwise_of_mem_iff ?_ hpairs hpairs' hmem
  intro p hp q hq hlt
  exact hcmp.not_lt_of_lt (a := ⟨p, hleast p hp⟩) (b := ⟨q, hleast q hq⟩) hlt

/-- Some of the clone pairs, sorted, are part of all of them, sorted. -/
theorem sortBy_sublist (hleast : ∀ p ∈ pairs, least ≤ p.similarity.overall)
    (hplaces : (pairs.map places).Nodup) (h : pairs'.Sublist pairs) :
    (Listing.sortBy compareScore pairs').Sublist (Listing.sortBy compareScore pairs) := by
  have hcmp := transCmp_compareScore hα least
  refine Listing.sublist_of_pairwise_of_subset ?_ ?_ (pairwise_sortBy hα hleast hplaces) ?_
  · intro p hp q hq hlt
    rw [Listing.mem_sortBy] at hp hq
    exact hcmp.not_lt_of_lt (a := ⟨p, hleast p hp⟩) (b := ⟨q, hleast q hq⟩) hlt
  · exact pairwise_sortBy hα (fun p hp ↦ hleast p (h.subset hp)) (hplaces.sublist (h.map _))
  · intro p hp
    rw [Listing.mem_sortBy] at hp ⊢
    exact h.subset hp

end ClonePair

/-- The clone pairs of a scan of fragments at different locations are sorted into a strict order. -/
theorem Survey.pairwise_sortBy_scanRows [Scalar α] (hα : Scalar.Ordered α) {s : Survey α}
    {w : Watch α} {fs : List Fragment} {reads : ℕ} (hfs : (fs.map (·.location)).Nodup)
    {scan : Scan α} (hscan : (s.scanRows w fs reads).1 = .ok scan) :
    (Listing.sortBy ClonePair.compareScore scan.accepted).Pairwise fun p q ↦
      p.compareScore q = .lt :=
  ClonePair.pairwise_sortBy hα (fun _ hp ↦ (compared_of_mem_scanRows hscan hp).threshold_le)
    (nodup_places_scanRows hfs hscan)

end NearClone
