import NearClone.Proofs.Cluster.Containment
import NearClone.Proofs.Cluster.Primary
import Mathlib.Data.Finset.Dedup

/-!
# Clusters of reordered pairs

The order of the pairs has no bearing on which of them hang together (`exists_group_of_perm`), and
so none on the members of a cluster. It has on two things only. Of several members that start at the
earliest place of a cluster the first one seen becomes the primary member, and with its length comes
what the cluster saves. And of several clusters of one rank the first one seen comes first. So the
outlines of the clusters, one after the other, do not depend on the order of the pairs exactly where
neither choice is left to it (`outline_group_perm_iff`), as where different locations never start at
one place (`Untied.of_starts`).
-/

set_option autoImplicit false
set_option relaxedAutoImplicit false

namespace NearClone

/-- Two lists that ascend strictly and match element by element have the same images. -/
theorem Listing.map_eq_of_matched {β γ : Type} {cmp : β → β → Ordering} [Std.TransCmp cmp]
    {f : β → γ} {xs ys : List β} (hxs : xs.Pairwise fun a b ↦ cmp a b = .lt)
    (hys : ys.Pairwise fun a b ↦ cmp a b = .lt)
    (h : ∀ x ∈ xs, ∃ y ∈ ys, cmp x y = .eq ∧ f x = f y)
    (h' : ∀ y ∈ ys, ∃ x ∈ xs, cmp x y = .eq) : xs.map f = ys.map f := by
  have hself (a : β) : cmp a a = .eq := Std.ReflCmp.compare_self
  have hne {a b : β} (hlt : cmp a b = .lt) : cmp a b ≠ .eq := fun heq ↦
    Ordering.noConfusion (hlt.symm.trans heq)
  induction xs generalizing ys with
  | nil =>
    cases ys with
    | nil => rfl
    | cons y ys =>
      obtain ⟨x, hx, -⟩ := h' y List.mem_cons_self
      exact absurd hx List.not_mem_nil
  | cons x xs ih =>
    cases ys with
    | nil =>
      obtain ⟨y, hy, -⟩ := h x List.mem_cons_self
      exact absurd hy List.not_mem_nil
    | cons y ys =>
      obtain ⟨hx, hxs⟩ := List.pairwise_cons.mp hxs
      obtain ⟨hy, hys⟩ := List.pairwise_cons.mp hys
      have hfirst : cmp x y = .eq ∧ f x = f y := by
        obtain ⟨y', hy', heq, hf⟩ := h x List.mem_cons_self
        rcases List.mem_cons.mp hy' with rfl | hbehind
        · exact ⟨heq, hf⟩
        -- Otherwise the first elements would precede each other.
        obtain ⟨x', hx', heq'⟩ := h' y List.mem_cons_self
        have hyx : cmp y x = .lt := by
          rw [Std.TransCmp.congr_right heq]
          exact hy y' hbehind
        rcases List.mem_cons.mp hx' with rfl | hbehind'
        · exact absurd (Std.OrientedCmp.eq_symm heq') (hne hyx)
        · have hxy : cmp x y = .lt := by
            rw [← Std.TransCmp.congr_right heq']
            exact hx x' hbehind'
          exact absurd (Std.TransCmp.lt_trans hxy hyx) fun hlt ↦ hne hlt (hself x)
      rw [List.map_cons, List.map_cons, hfirst.2]
      refine congrArg _ (ih hxs hys (fun a ha ↦ ?_) fun b hb ↦ ?_)
      · obtain ⟨b, hb, heq, hf⟩ := h a (List.mem_cons_of_mem _ ha)
        rcases List.mem_cons.mp hb with rfl | hbehind
        · have hlt := hx a ha
          rw [Std.TransCmp.congr_right heq] at hlt
          exact absurd hfirst.1 (hne hlt)
        · exact ⟨b, hbehind, heq, hf⟩
      · obtain ⟨a, ha, heq⟩ := h' b (List.mem_cons_of_mem _ hb)
        rcases List.mem_cons.mp ha with rfl | hbehind
        · have hlt := hy b hb
          rw [← Std.TransCmp.congr_left hfirst.1] at hlt
          exact absurd heq (hne hlt)
        · exact ⟨a, hbehind, heq⟩

variable {α : Type}

namespace Cluster

open Listing

/-- What there is to see of a cluster, whatever the order of its pairs. -/
structure Outline where
  primary : Location
  saving : Int
  places : Finset Location
  deriving DecidableEq

/-- The outline of a cluster. -/
def outline (k : Cluster α) : Outline := ⟨k.primary.location, k.saving, k.places.toFinset⟩

/-- The order of the pairs has no say: the first end of a pair that starts where its cluster does,
if there is one, is at the location of the primary member, and no two clusters have one rank. -/
structure Untied (c : Config α) (pairs : List (ClonePair α)) : Prop where
  primary : ∀ k ∈ group c pairs, ∀ p ∈ k.pairs, ∀ e ∈ p.firstAt k.primary,
    e.location = k.primary.location
  rank : (group c pairs).Pairwise fun a b ↦ compareRank a b ≠ .eq

variable {c : Config α} {k k' : Cluster α} {pairs pairs' : List (ClonePair α)} {p q : ClonePair α}
  {e : Fragment} {place : Location}

/-! ### The same pairs -/

/-- A chain of pairs does not depend on their order. -/
theorem Chained.perm (h : pairs'.Perm pairs) : Chained pairs' p q ↔ Chained pairs p q :=
  ⟨Chained.mono h.subset, Chained.mono h.symm.subset⟩

/-- The pairs of a cluster are those of a cluster of the reordered pairs. -/
theorem exists_group_of_perm (h : pairs'.Perm pairs) (hk : k ∈ group c pairs) :
    ∃ k' ∈ group c pairs', k'.pairs.Perm k.pairs := by
  obtain ⟨tree, hpairs, hne⟩ := exists_tree_of_mem_group hk
  obtain ⟨p, hp⟩ := List.exists_mem_of_ne_nil k.pairs hne
  have hmem : p ∈ pairs := mem_of_mem_group hk hp
  obtain ⟨k', hk', hp'⟩ := exists_mem_group c (h.symm.subset hmem)
  obtain ⟨tree', hpairs', -⟩ := exists_tree_of_mem_group hk'
  refine ⟨k', hk', ?_⟩
  rw [hpairs, mem_pairsIn] at hp
  rw [hpairs', mem_pairsIn] at hp'
  rw [hpairs, hpairs', pairsIn, pairsIn]
  refine (h.filter _).trans (List.Perm.of_eq (List.filter_congr fun q hq ↦ ?_))
  have hq' : q ∈ pairs' := h.symm.subset hq
  rw [← hp.2, ← hp'.2, decide_eq_decide, eq_comm, eq_comm (a := treeOf pairs q.left),
    treeOf_eq_iff_chained hp'.1 hq', treeOf_eq_iff_chained hp.1 hq, Chained.perm h]

/-- Clusters that share a location are the same. -/
theorem eq_of_mem_places (hk : k ∈ group c pairs) (hk' : k' ∈ group c pairs)
    (h : place ∈ k.places) (h' : place ∈ k'.places) : k = k' := by
  obtain ⟨p, hp, e, he, hplace⟩ := mem_places.mp h
  obtain ⟨q, hq, e', he', hplace'⟩ := mem_places.mp h'
  have hmeets : p.Meets q := ⟨e, he, e', he', hplace.trans hplace'.symm⟩
  have hsymm : Std.Symm fun a b : Cluster α ↦ Apart a.pairs b.pairs :=
    ⟨fun a b hapart q hq p hp hmeets ↦ hapart p hp q hq hmeets.symm⟩
  have hapart := List.pairwise_map.mp (pairwise_apart_group c pairs)
  by_contra hne
  exact hapart.forall hk hk' hne p hp q hq hmeets

/-- The same pairs have the same locations. -/
theorem mem_places_of_perm (h : k'.pairs.Perm k.pairs) : place ∈ k'.places ↔ place ∈ k.places := by
  simp only [mem_places, h.mem_iff]

/-- A cluster has a location. -/
theorem exists_mem_places (hk : k ∈ group c pairs) : ∃ place, place ∈ k.places := by
  obtain ⟨-, -, hne⟩ := exists_tree_of_mem_group hk
  obtain ⟨p, hp⟩ := List.exists_mem_of_ne_nil k.pairs hne
  exact ⟨p.left.location, mem_places.mpr ⟨p, hp, p.left, p.left_mem_ends, rfl⟩⟩

/-- The same pairs have as many members. -/
theorem occurrences_eq_of_perm (h : k'.pairs.Perm k.pairs) : k'.occurrences = k.occurrences := by
  have hplaces : k'.places.Perm k.places :=
    (List.perm_ext_iff_of_nodup k'.nodup_places k.nodup_places).mpr fun _ ↦ mem_places_of_perm h
  have hlength := hplaces.length_eq
  rwa [places, List.length_map, places, List.length_map] at hlength

/-- The primary member is an end of a pair. -/
theorem exists_firstAt_primary (hk : k ∈ group c pairs) :
    ∃ p ∈ k.pairs, p.firstAt k.primary = some k.primary :=
  List.exists_of_findSome?_eq_some (findSome?_firstAt hk)

theorem mem_ends_of_firstAt {f : Fragment} (h : p.firstAt f = some e) : e ∈ p.ends :=
  List.mem_of_find?_eq_some h

theorem compareStart_of_firstAt {f : Fragment} (h : p.firstAt f = some e) :
    e.compareStart f = .eq :=
  of_decide_eq_true (List.find?_some (p := fun e : Fragment ↦ e.compareStart f = .eq) h)

/-- The same pairs start at the same place. -/
theorem compareStart_primary_of_perm (hk : k ∈ group c pairs) (hk' : k' ∈ group c pairs')
    (h : k'.pairs.Perm k.pairs) : k'.primary.compareStart k.primary = .eq := by
  obtain ⟨p, hp, hfirst⟩ := exists_firstAt_primary hk
  obtain ⟨p', hp', hfirst'⟩ := exists_firstAt_primary hk'
  have hle := isLE_of_mem_ends hk' (h.symm.subset hp) (mem_ends_of_firstAt hfirst)
  have hle' := isLE_of_mem_ends hk (h.subset hp') (mem_ends_of_firstAt hfirst')
  exact Std.OrientedCmp.isLE_antisymm hle hle'

/-- The same pairs have the same outline if the primary members are at one location. -/
theorem outline_eq_of_perm (hplaces : Fragment.Unambiguous (pairs.flatMap ClonePair.ends))
    (hk : k ∈ group c pairs) (hk' : k' ∈ group c pairs') (h : k'.pairs.Perm k.pairs)
    (hprimary : k'.primary.location = k.primary.location) : k'.outline = k.outline := by
  have hmem {f : Fragment} {p : ClonePair α} (hp : p ∈ k.pairs)
      (hfirst : p.firstAt f = some f) : f ∈ pairs.flatMap ClonePair.ends :=
    List.mem_flatMap.mpr ⟨p, mem_of_mem_group hk hp, mem_ends_of_firstAt hfirst⟩
  obtain ⟨p, hp, hfirst⟩ := exists_firstAt_primary hk
  obtain ⟨p', hp', hfirst'⟩ := exists_firstAt_primary hk'
  have hsame : k'.primary = k.primary :=
    hplaces _ (hmem (h.subset hp') hfirst') _ (hmem hp hfirst) hprimary
  have hsaving : k'.saving = k.saving := by
    rw [saving_eq hk', saving_eq hk, hsame, occurrences_eq_of_perm h]
  have hmembers : k'.places.toFinset = k.places.toFinset := by
    ext place
    rw [List.mem_toFinset, List.mem_toFinset, mem_places_of_perm h]
  rw [outline, outline, hsame, hsaving, hmembers]

/-- Clusters of one outline and as many pairs have one rank. -/
theorem compareRank_eq_of_outline_eq (h : k'.outline = k.outline)
    (hpairs : k'.pairs.length = k.pairs.length) : compareRank k' k = .eq := by
  obtain ⟨hprimary, hsaving, -⟩ := Outline.mk.inj h
  have hself (l : Location) : l.compareStart l = .eq := Std.ReflCmp.compare_self
  refine compareLex_eq_eq.mpr ⟨?_, compareLex_eq_eq.mpr ⟨?_, ?_⟩⟩
  · exact Std.LawfulEqOrd.compare_eq_iff_eq.mpr (congrArg _ hsaving)
  · exact Std.LawfulEqOrd.compare_eq_iff_eq.mpr (congrArg (fun n : ℕ ↦ -(n : Int)) hpairs)
  · rw [Fragment.compareStart, hprimary, hself]

/-- A cluster of the reordered pairs with the same outline has the same pairs. -/
theorem perm_of_outline_eq (h : pairs'.Perm pairs) (hk : k ∈ group c pairs)
    (hk' : k' ∈ group c pairs') (houtline : k'.outline = k.outline) : k'.pairs.Perm k.pairs := by
  obtain ⟨k₀, hk₀, hperm⟩ := exists_group_of_perm h hk
  obtain ⟨place, hplace⟩ := exists_mem_places hk
  have hplace' : place ∈ k'.places := by
    rw [← List.mem_toFinset, (Outline.mk.inj houtline).2.2, List.mem_toFinset]
    exact hplace
  rw [eq_of_mem_places hk' hk₀ hplace' ((mem_places_of_perm hperm).mpr hplace)]
  exact hperm

/-! ### Nothing left to the order -/

/-- Clusters that no two of have one rank ascend strictly. -/
theorem pairwise_lt_group (h : (group c pairs).Pairwise fun a b ↦ compareRank a b ≠ .eq) :
    (group c pairs).Pairwise fun a b ↦ compareRank a b = .lt := by
  have hsorted : (group c pairs).Pairwise fun a b ↦ (compareRank a b).isLE = true :=
    pairwise_sortBy compareRank _
  refine hsorted.imp₂ (fun a b hle hne ↦ ?_) h
  exact (Ordering.isLE_iff_eq_lt_or_eq_eq.mp hle).resolve_right hne

namespace Untied

/-- Whatever the order of the pairs, the primary member is at one location. -/
theorem primary_location_eq (hu : Untied c pairs) (hk : k ∈ group c pairs)
    (hk' : k' ∈ group c pairs') (h : k'.pairs.Perm k.pairs) :
    k'.primary.location = k.primary.location := by
  obtain ⟨p, hp, hfirst⟩ := exists_firstAt_primary hk'
  rw [p.firstAt_congr (compareStart_primary_of_perm hk hk' h)] at hfirst
  exact hu.primary k hk p (h.subset hp) k'.primary hfirst

/-- Whatever the order of the pairs, no two clusters have one rank. -/
theorem rank_of_perm (hu : Untied c pairs)
    (hplaces : Fragment.Unambiguous (pairs.flatMap ClonePair.ends)) (h : pairs'.Perm pairs) :
    (group c pairs').Pairwise fun a b ↦ compareRank a b ≠ .eq := by
  have hsame {k' : Cluster α} (hk' : k' ∈ group c pairs') :
      ∃ k ∈ group c pairs, k'.pairs.Perm k.pairs ∧ compareRank k' k = .eq := by
    obtain ⟨k, hk, hperm⟩ := exists_group_of_perm h.symm hk'
    have hprimary := hu.primary_location_eq hk hk' hperm.symm
    exact ⟨k, hk, hperm.symm, compareRank_eq_of_outline_eq
      (outline_eq_of_perm hplaces hk hk' hperm.symm hprimary) hperm.symm.length_eq⟩
  refine List.pairwise_iff_forall_sublist.mpr fun {a' b'} hab hrank' ↦ ?_
  obtain ⟨a, ha, haperm, harank⟩ := hsame (hab.subset List.mem_cons_self)
  obtain ⟨b, hb, hbperm, hbrank⟩ :=
    hsame (hab.subset (List.mem_cons_of_mem _ List.mem_cons_self))
  have heq : a = b := by
    have hsymm : Std.Symm fun a b : Cluster α ↦ compareRank a b ≠ .eq :=
      ⟨fun a b hne heq ↦ hne (Std.OrientedCmp.eq_symm heq)⟩
    have hrank : compareRank a b = .eq :=
      Std.TransCmp.eq_trans (Std.OrientedCmp.eq_symm harank) (Std.TransCmp.eq_trans hrank' hbrank)
    by_contra hne
    exact hu.rank.forall ha hb hne hrank
  -- The two would have the same pairs, but clusters are apart.
  have hapart := List.pairwise_map.mp (pairwise_apart_group c pairs')
  obtain ⟨-, -, hne⟩ := exists_tree_of_mem_group (hab.subset List.mem_cons_self)
  obtain ⟨p, hp⟩ := List.exists_mem_of_ne_nil a'.pairs hne
  have hp' : p ∈ b'.pairs := hbperm.symm.subset (heq ▸ haperm.subset hp)
  exact List.pairwise_iff_forall_sublist.mp hapart hab p hp p hp' (.refl p)

/-- Whatever the order of the pairs, the clusters have the same outlines in the same order. -/
theorem map_outline_group (hu : Untied c pairs)
    (hplaces : Fragment.Unambiguous (pairs.flatMap ClonePair.ends)) (h : pairs'.Perm pairs) :
    (group c pairs').map outline = (group c pairs).map outline := by
  have hsame {k k' : Cluster α} (hk : k ∈ group c pairs) (hk' : k' ∈ group c pairs')
      (hperm : k'.pairs.Perm k.pairs) : k'.outline = k.outline ∧ compareRank k' k = .eq := by
    have houtline :=
      outline_eq_of_perm hplaces hk hk' hperm (hu.primary_location_eq hk hk' hperm)
    exact ⟨houtline, compareRank_eq_of_outline_eq houtline hperm.length_eq⟩
  refine map_eq_of_matched (pairwise_lt_group (hu.rank_of_perm hplaces h))
    (pairwise_lt_group hu.rank) (fun k' hk' ↦ ?_) fun k hk ↦ ?_
  · obtain ⟨k, hk, hperm⟩ := exists_group_of_perm h.symm hk'
    obtain ⟨houtline, hrank⟩ := hsame hk hk' hperm.symm
    exact ⟨k, hk, hrank, houtline⟩
  · obtain ⟨k', hk', hperm⟩ := exists_group_of_perm h hk
    exact ⟨k', hk', (hsame hk hk' hperm).2⟩

/-- Where different locations never start at one place nothing is left to the order. -/
theorem of_starts (c : Config α) (h : ∀ e ∈ pairs.flatMap ClonePair.ends,
    ∀ e' ∈ pairs.flatMap ClonePair.ends, e.compareStart e' = .eq → e.location = e'.location) :
    Untied c pairs := by
  have hmem {k : Cluster α} (hk : k ∈ group c pairs) {p : ClonePair α} (hp : p ∈ k.pairs)
      {e : Fragment} (he : e ∈ p.ends) : e ∈ pairs.flatMap ClonePair.ends :=
    List.mem_flatMap.mpr ⟨p, mem_of_mem_group hk hp, he⟩
  refine ⟨fun k hk p hp e he ↦ ?_, List.pairwise_iff_forall_sublist.mpr fun {a b} hab hrank ↦ ?_⟩
  · obtain ⟨q, hq, hfirst⟩ := exists_firstAt_primary hk
    refine h e (hmem hk hp (mem_ends_of_firstAt he)) k.primary
      (hmem hk hq (mem_ends_of_firstAt hfirst)) ?_
    exact compareStart_of_firstAt he
  · -- Two clusters of one rank would share the location of their primary members.
    have ha := hab.subset List.mem_cons_self
    have hb := hab.subset (List.mem_cons_of_mem _ List.mem_cons_self)
    obtain ⟨p, hp, hpfirst⟩ := exists_firstAt_primary ha
    obtain ⟨q, hq, hqfirst⟩ := exists_firstAt_primary hb
    have hpend := mem_ends_of_firstAt hpfirst
    have hqend := mem_ends_of_firstAt hqfirst
    have hstart : a.primary.compareStart b.primary = .eq :=
      (compareLex_eq_eq.mp (compareLex_eq_eq.mp hrank).2).2
    have hlocation := h _ (hmem ha hp hpend) _ (hmem hb hq hqend) hstart
    have hapart := List.pairwise_map.mp (pairwise_apart_group c pairs)
    exact List.pairwise_iff_forall_sublist.mp hapart hab p hp q hq
      ⟨a.primary, hpend, b.primary, hqend, hlocation⟩

end Untied

/-! ### A pair at the front -/

section Front

variable {rest : List (ClonePair α)} {a b : Cluster α}

/-- The cluster of the first pair begins with it. -/
theorem exists_pairs_eq_cons (hk : k ∈ group c (q :: rest)) (hq : q ∈ k.pairs) :
    ∃ tail, k.pairs = q :: tail := by
  obtain ⟨tree, hpairs, -⟩ := exists_tree_of_mem_group hk
  rw [hpairs, mem_pairsIn] at hq
  have hfirst : decide (treeOf (q :: rest) q.left = tree) = true := decide_eq_true hq.2
  exact ⟨_, hpairs.trans (List.filter_cons_of_pos hfirst)⟩

/-- The first pair gives its cluster the primary member if it has an end that starts there. -/
theorem primary_eq_of_firstAt (hk : k ∈ group c (q :: rest)) (hq : q ∈ k.pairs)
    (h : q.firstAt k.primary = some e) : k.primary = e := by
  obtain ⟨tail, hpairs⟩ := exists_pairs_eq_cons hk hq
  have hfirst := findSome?_firstAt hk
  rw [hpairs, List.findSome?_cons, h] at hfirst
  exact (Option.some.inj hfirst).symm

/-- A cluster that comes before that of the first pair comes before it by rank. -/
theorem compareRank_lt_of_sublist (hab : [a, b].Sublist (group c (q :: rest)))
    (hq : q ∈ b.pairs) : compareRank a b = .lt := by
  have htrans : Std.TransCmp fun a b : Cluster α × List ℕ ↦ compareRank a.1 b.1 :=
    transCmp_on compareRank Prod.fst
  rw [group_eq_map_sortBy] at hab
  obtain ⟨entries, hsub, hentries⟩ := List.sublist_map_iff.mp hab
  obtain ⟨x, tail, rfl, rfl, htail⟩ := List.map_eq_cons_iff.mp hentries.symm
  obtain ⟨y, last, rfl, rfl, hlast⟩ := List.map_eq_cons_iff.mp htail
  obtain rfl := List.map_eq_nil_iff.mp hlast
  have hplaced : (sortBy (fun a b ↦ compareRank a.1 b.1) (placedTrees c (q :: rest))).Pairwise _ :=
    pairwise_sortBy_of_pairwise (pairwise_head_placedTrees c (q :: rest))
  rcases List.pairwise_iff_forall_sublist.mp hplaced hsub with hlt | ⟨-, i, -, j, hj, hij⟩
  · exact hlt
  -- The positions of the later cluster would begin behind the first one, which is among them.
  have hy := mem_sortBy.mp (hsub.subset (List.mem_cons_of_mem _ List.mem_cons_self))
  obtain ⟨tree, hpairs, hplaces, -⟩ := of_mem_placedTrees hy
  rw [hpairs, mem_pairsIn] at hq
  have hzero : 0 ∈ y.2 := by
    rw [hplaces]
    exact mem_placesIn.mpr ⟨q, rfl, hq.2⟩
  have hascend : y.2.Pairwise (· < ·) := by
    rw [hplaces]
    exact pairwise_placesIn _ _
  obtain ⟨places, hyplaces⟩ := List.head?_eq_some_iff.mp hj
  rw [hyplaces] at hzero hascend
  rcases List.mem_cons.mp hzero with rfl | hbehind
  · exact absurd hij (Nat.not_lt_zero i)
  · exact absurd ((List.pairwise_cons.mp hascend).1 0 hbehind) (Nat.not_lt_zero j)

end Front

/-- Every pair can be moved to the front. -/
theorem exists_perm_cons (hq : q ∈ pairs) : ∃ rest, (q :: rest).Perm pairs := by
  obtain ⟨before, after, rfl⟩ := List.append_of_mem hq
  exact ⟨before ++ after, List.perm_middle.symm⟩

/-- Where the outlines never depend on the order of the pairs, nothing is left to it. -/
theorem untied_of_map_outline_group (h : ∀ pairs', pairs'.Perm pairs →
    (group c pairs').map outline = (group c pairs).map outline) : Untied c pairs := by
  refine ⟨fun k hk q hq e he ↦ ?_, List.pairwise_iff_forall_sublist.mpr fun {a b} hab hrank ↦ ?_⟩
  · obtain ⟨rest, hperm⟩ := exists_perm_cons (mem_of_mem_group hk hq)
    have houtline : k.outline ∈ (group c (q :: rest)).map outline := by
      rw [h _ hperm]
      exact List.mem_map_of_mem hk
    obtain ⟨k', hk', houtline'⟩ := List.mem_map.mp houtline
    have hpairs := perm_of_outline_eq hperm hk hk' houtline'
    have hfirst : q.firstAt k'.primary = some e := by
      rw [q.firstAt_congr (compareStart_primary_of_perm hk hk' hpairs)]
      exact he
    rw [← primary_eq_of_firstAt hk' (hpairs.symm.subset hq) hfirst]
    exact (Outline.mk.inj houtline').1
  · have ha := hab.subset List.mem_cons_self
    have hb := hab.subset (List.mem_cons_of_mem _ List.mem_cons_self)
    obtain ⟨-, -, hne⟩ := exists_tree_of_mem_group hb
    obtain ⟨q, hq⟩ := List.exists_mem_of_ne_nil b.pairs hne
    obtain ⟨rest, hperm⟩ := exists_perm_cons (mem_of_mem_group hb hq)
    have houtlines := hab.map outline
    rw [← h _ hperm] at houtlines
    obtain ⟨found, hsub, hfound⟩ := List.sublist_map_iff.mp houtlines
    obtain ⟨a', tail, rfl, haoutline, htail⟩ := List.map_eq_cons_iff.mp hfound.symm
    obtain ⟨b', last, rfl, hboutline, hlast⟩ := List.map_eq_cons_iff.mp htail
    obtain rfl := List.map_eq_nil_iff.mp hlast
    have ha' := hsub.subset List.mem_cons_self
    have hb' := hsub.subset (List.mem_cons_of_mem _ List.mem_cons_self)
    have haperm := perm_of_outline_eq hperm ha ha' haoutline
    have hbperm := perm_of_outline_eq hperm hb hb' hboutline
    have hlt := compareRank_lt_of_sublist hsub (hbperm.symm.subset hq)
    have heq : compareRank a' b' = .eq := Std.TransCmp.eq_trans
      (compareRank_eq_of_outline_eq haoutline haperm.length_eq) (Std.TransCmp.eq_trans hrank
        (Std.OrientedCmp.eq_symm (compareRank_eq_of_outline_eq hboutline hbperm.length_eq)))
    exact Ordering.noConfusion (hlt.symm.trans heq)

/-- When the order of the pairs does not matter. Assumes: fragments that are the same where they are
at one location. However the pairs are reordered, the clusters come in one order with the same
primary locations, savings and member locations, exactly if in every cluster the first end of each
pair that starts where the cluster does is at the location of the primary member, and no two
clusters have one rank. -/
theorem outline_group_perm_iff (c : Config α)
    (hplaces : Fragment.Unambiguous (pairs.flatMap ClonePair.ends)) :
    (∀ pairs', pairs'.Perm pairs →
      (group c pairs').map outline = (group c pairs).map outline) ↔ Untied c pairs :=
  ⟨untied_of_map_outline_group, fun hu _ h ↦ hu.map_outline_group hplaces h⟩

/-- Three pairs make two clusters, and all members start at different places. Whatever the order of
the pairs, the outlines are the same. -/
theorem outline_group_perm_three :
    let fragment : Int → ℕ → Fragment := fun line length ↦
      { statements := List.replicate length { shape := "call", kind := "expression" }
        location := ⟨"main", ⟨line, line + length, 1, 1⟩⟩ }
    let pair : Fragment → Fragment → ClonePair ℚ := fun f g ↦ ⟨f, g, Similarity.empty⟩
    let pairs := [pair (fragment 10 5) (fragment 20 5), pair (fragment 20 5) (fragment 30 5),
      pair (fragment 50 7) (fragment 60 7)]
    Fragment.Unambiguous (pairs.flatMap ClonePair.ends) ∧
      ∀ pairs', pairs'.Perm pairs →
        (group Config.default pairs').map outline = (group Config.default pairs).map outline := by
  intro fragment pair pairs
  have hplaces : Fragment.Unambiguous (pairs.flatMap ClonePair.ends) := by
    rw [Fragment.Unambiguous]
    decide +kernel
  refine ⟨hplaces, (outline_group_perm_iff Config.default hplaces).mpr ?_⟩
  exact Untied.of_starts Config.default (by decide +kernel)

/-- Two fragments of different lengths start at one place, and each makes a pair with a third one.
The order of the pairs decides which of them is the primary member, and so what the cluster
saves. -/
theorem outline_group_reverse_ne :
    let fragment : Int → ℕ → Fragment := fun line length ↦
      { statements := List.replicate length { shape := "call", kind := "expression" }
        location := ⟨"main", ⟨line, line + length, 1, 1⟩⟩ }
    let pair : Fragment → Fragment → ClonePair ℚ := fun f g ↦ ⟨f, g, Similarity.empty⟩
    let pairs := [pair (fragment 1 5) (fragment 11 5), pair (fragment 1 6) (fragment 11 5)]
    Fragment.Unambiguous (pairs.flatMap ClonePair.ends) ∧
      (group Config.default pairs).map (·.saving) = [7] ∧
      (group Config.default pairs.reverse).map (·.saving) = [9] ∧
      (group Config.default pairs.reverse).map outline ≠
        (group Config.default pairs).map outline := by
  intro fragment pair pairs
  have hplaces : Fragment.Unambiguous (pairs.flatMap ClonePair.ends) := by
    rw [Fragment.Unambiguous]
    decide +kernel
  have hforward : placedTrees Config.default pairs =
      [(⟨fragment 1 5, pairs, 7, none⟩, [0, 1])] := by
    decide +kernel
  have hbackward : placedTrees Config.default pairs.reverse =
      [(⟨fragment 1 6, pairs.reverse, 9, none⟩, [0, 1])] := by
    decide +kernel
  have hsingle (entry : Cluster ℚ × List ℕ) :
      sortBy (fun a b ↦ compareRank a.1 b.1) [entry] = [entry] :=
    sortBy_of_pairwise (List.pairwise_singleton _ _)
  rw [group_eq_map_sortBy, group_eq_map_sortBy, hforward, hbackward, hsingle, hsingle]
  refine ⟨hplaces, rfl, rfl, fun heq ↦ ?_⟩
  have hsaving : [(9 : Int)] = [7] := congrArg (List.map Outline.saving) heq
  exact absurd hsaving (by decide)

end Cluster

end NearClone
