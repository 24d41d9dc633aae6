import NearClone.Proofs.Alignment.Cover
import NearClone.Proofs.Alignment.Optimal
import NearClone.Proofs.Listing.Sorted
import NearClone.Variation

/-!
# Gaps of an alignment

Two positions are in one gap of an alignment if every match is before both or behind both
(`SameGap`). A match between them could be added to the chain (`IsChain.exists_perm_cons`), so an
optimal alignment leaves no two statements of one shape in a gap (`Optimal.not_matches_of_sameGap`).
A gap pairs its positions from its start on until one side runs out, and so has positions without a
partner on one side at most (`oneSided_align`). `accounts_align` puts this together with the
positions that an alignment covers: it accounts for every statement once, and whoever looks up the
aligned statements finds them.
-/

set_option autoImplicit false
set_option relaxedAutoImplicit false

namespace NearClone

/-- Where every step succeeds with the value that is kept, the steps give the values kept. -/
theorem Listing.mapM_eq_ok_filterMap {β γ ε : Type} {f : β → Except ε γ} {g : β → Option γ}
    {xs : List β} (h : ∀ x ∈ xs, ∃ y, f x = .ok y ∧ g x = some y) :
    xs.mapM f = .ok (xs.filterMap g) := by
  induction xs with
  | nil => rfl
  | cons x xs ih =>
    obtain ⟨⟨y, hf, hg⟩, hxs⟩ := List.forall_mem_cons.mp h
    rw [List.mapM_cons, hf, ih hxs, List.filterMap_cons_some hg]
    rfl

namespace Alignment

open Listing

/-- The positions are in one gap: every match is before both of them or behind both. -/
def SameGap (a : Alignment) (i j : ℕ) : Prop :=
  ∀ p ∈ a.matched, Before p (i, j) ∨ Before (i, j) p

/-- In every gap no more than one side has positions without a partner. -/
def OneSided (a : Alignment) : Prop :=
  ∀ i ∈ a.leftOnly, ∀ j ∈ a.rightOnly, ¬ a.SameGap i j

theorem SameGap.of_swapped {a : Alignment} {i j : ℕ} (h : a.swapped.SameGap j i) :
    a.SameGap i j := by
  intro p hp
  exact (h p.swap (List.mem_map_of_mem hp)).imp And.symm And.symm

theorem OneSided.swapped {a : Alignment} (h : a.OneSided) : a.swapped.OneSided :=
  fun j hj i hi hgap ↦ h i hi j hj hgap.of_swapped

/-! ### Matches that could be added -/

section Optimal

variable {ss ts : List Statement} {a : Alignment}

/-- No chain has more matches than an optimal alignment. -/
theorem Optimal.length_le (h : Optimal ss ts a) {chain : List (ℕ × ℕ)}
    (hchain : IsChain ss ts chain) : chain.length ≤ a.matched.length := by
  have hworth := h.worth_le chain hchain
  rw [worth, Prod.Lex.toLex_le_toLex] at hworth
  omega

/-- Every chain has a place for a match that is before or behind each of its own. -/
theorem IsChain.exists_perm_cons {chain : List (ℕ × ℕ)} (h : IsChain ss ts chain) {q : ℕ × ℕ}
    (hq : Matches ss ts q) (hapart : ∀ p ∈ chain, Before p q ∨ Before q p) :
    ∃ longer, IsChain ss ts longer ∧ longer.Perm (q :: chain) := by
  induction chain with
  | nil =>
    exact ⟨[q], ⟨List.pairwise_singleton _ _, List.forall_mem_singleton.mpr hq⟩, .refl _⟩
  | cons p rest ih =>
    obtain ⟨hp, hrest⟩ := List.forall_mem_cons.mp hapart
    obtain ⟨hbehind, hpairwise⟩ := List.pairwise_cons.mp h.pairwise
    obtain ⟨hmatches, hmatchesRest⟩ := List.forall_mem_cons.mp h.forall_matches
    rcases hp with hpq | hqp
    · obtain ⟨longer, hlonger, hperm⟩ := ih ⟨hpairwise, hmatchesRest⟩ hrest
      have hfirst : ∀ r ∈ longer, Before p r := by
        intro r hr
        rcases List.mem_cons.mp (hperm.mem_iff.mp hr) with rfl | hr
        · exact hpq
        · exact hbehind r hr
      exact ⟨p :: longer, ⟨List.pairwise_cons.mpr ⟨hfirst, hlonger.pairwise⟩,
        List.forall_mem_cons.mpr ⟨hmatches, hlonger.forall_matches⟩⟩,
        (hperm.cons p).trans (.swap q p rest)⟩
    · have hfirst : ∀ r ∈ p :: rest, Before q r := by
        refine List.forall_mem_cons.mpr ⟨hqp, fun r hr ↦ ?_⟩
        exact ⟨hqp.1.trans (hbehind r hr).1, hqp.2.trans (hbehind r hr).2⟩
      exact ⟨q :: p :: rest, ⟨List.pairwise_cons.mpr ⟨hfirst, h.pairwise⟩,
        List.forall_mem_cons.mpr ⟨hq, h.forall_matches⟩⟩, .refl _⟩

/-- Two statements in one gap of an optimal alignment differ in shape. -/
theorem Optimal.not_matches_of_sameGap (h : Optimal ss ts a) {i j : ℕ} (hgap : a.SameGap i j) :
    ¬ Matches ss ts (i, j) := by
  intro hmatches
  obtain ⟨longer, hlonger, hperm⟩ := h.isChain.exists_perm_cons hmatches hgap
  have hle := h.length_le hlonger
  rw [hperm.length_eq, List.length_cons] at hle
  omega

/-- Two statements in one gap differ in shape. -/
theorem not_matches_align_of_sameGap {i j : ℕ} (hgap : (align ss ts).SameGap i j) :
    ¬ Matches ss ts (i, j) := by
  rcases align_eq_or_eq ss ts with h | h
  · rw [h] at hgap
    exact (optimal_directed ss ts).not_matches_of_sameGap hgap
  · rw [h] at hgap
    exact (optimal_directed ts ss).swapped.not_matches_of_sameGap hgap

end Optimal

/-- The two positions of a substitution are in one gap. -/
theorem sameGap_of_mem_substituted {a : Alignment} (h : a.aligned.Pairwise Before) {q : ℕ × ℕ}
    (hq : q ∈ a.substituted) : a.SameGap q.1 q.2 := by
  have hpairwise : (a.matched ++ a.substituted).Pairwise fun p q ↦ Before p q ∨ Before q p :=
    ((sortBy_perm comparePairs _).pairwise_iff Or.symm).mp (h.imp Or.inl)
  intro p hp
  exact (List.pairwise_append.mp hpairwise).2.2 p hp q hq

/-! ### Positions without a partner -/

namespace Gap

variable {g : Gap} {i j : ℕ}

theorem of_mem_left (h : i ∈ g.left) : g.leftStart ≤ i ∧ i < g.leftEnd := by
  rw [left, List.mem_range'_1] at h
  omega

theorem of_mem_right (h : j ∈ g.right) : g.rightStart ≤ j ∧ j < g.rightEnd := by
  rw [right, List.mem_range'_1] at h
  omega

/-- A gap has positions without a partner on one side at most. -/
theorem not_mem_rightOver (h : i ∈ g.leftOver) : j ∉ g.rightOver := by
  intro hright
  have hleftPos := List.length_pos_of_mem h
  have hrightPos := List.length_pos_of_mem hright
  rw [leftOver, List.length_drop] at hleftPos
  rw [rightOver, List.length_drop] at hrightPos
  omega

end Gap

/-- The gaps of a chain start no earlier than the chain does. -/
theorem le_of_mem_gaps {n m i j : ℕ} {chain : List (ℕ × ℕ)} (h : Ascends n m i j chain) {g : Gap}
    (hg : g ∈ gaps n m i j chain) : i ≤ g.leftStart ∧ j ≤ g.rightStart := by
  induction chain generalizing i j with
  | nil =>
    obtain rfl := List.mem_singleton.mp hg
    exact ⟨le_rfl, le_rfl⟩
  | cons p rest ih =>
    obtain ⟨hi, hj, hrest⟩ := h
    rcases List.mem_cons.mp hg with rfl | hg
    · exact ⟨le_rfl, le_rfl⟩
    · have hstart := ih hrest hg
      omega

/-- No match comes between positions of one gap of a chain. -/
theorem before_or_before_of_mem_gaps {n m i j k l : ℕ} {chain : List (ℕ × ℕ)}
    (h : Ascends n m i j chain) {g : Gap} (hg : g ∈ gaps n m i j chain) (hk : k ∈ g.left)
    (hl : l ∈ g.right) : ∀ p ∈ chain, Before p (k, l) ∨ Before (k, l) p := by
  have hkBounds := Gap.of_mem_left hk
  have hlBounds := Gap.of_mem_right hl
  induction chain generalizing i j with
  | nil => exact List.forall_mem_nil _
  | cons p rest ih =>
    have hrest := h.2.2
    rcases List.mem_cons.mp hg with rfl | hg
    · refine List.forall_mem_cons.mpr ⟨Or.inr ⟨hkBounds.2, hlBounds.2⟩, fun q hq ↦ ?_⟩
      have hq := hrest.mem_bounds hq
      exact Or.inr ⟨hkBounds.2.trans hq.1, hlBounds.2.trans hq.2.1⟩
    · have hstart := le_of_mem_gaps hrest hg
      refine List.forall_mem_cons.mpr ⟨Or.inl ?_, ih hrest hg⟩
      simp only [Before]
      omega

/-- Between positions without a partner on different sides there is a match. -/
theorem exists_match_between {n m i j k l : ℕ} {chain : List (ℕ × ℕ)} (h : Ascends n m i j chain)
    (hk : k ∈ (gaps n m i j chain).flatMap Gap.leftOver)
    (hl : l ∈ (gaps n m i j chain).flatMap Gap.rightOver) :
    ∃ p ∈ chain, ¬ (Before p (k, l) ∨ Before (k, l) p) := by
  induction chain generalizing i j with
  | nil =>
    rw [gaps, List.flatMap_singleton] at hk hl
    exact absurd hl (Gap.not_mem_rightOver hk)
  | cons p rest ih =>
    obtain ⟨a, b⟩ := p
    have hrest := h.2.2
    rw [gaps, List.flatMap_cons, List.mem_append] at hk hl
    -- Unless both are behind the first match or both before it, that match is between them.
    rcases hk with hk | hk <;> rcases hl with hl | hl
    · exact absurd hl (Gap.not_mem_rightOver hk)
    · obtain ⟨g, hg, hl⟩ := List.mem_flatMap.mp hl
      have hka := (Gap.of_mem_left (List.mem_of_mem_drop hk)).2
      have hlb := (Gap.of_mem_right (List.mem_of_mem_drop hl)).1
      have hstart := (le_of_mem_gaps hrest hg).2
      refine ⟨(a, b), List.mem_cons_self, ?_⟩
      simp only [Before] at hka ⊢
      omega
    · obtain ⟨g, hg, hk⟩ := List.mem_flatMap.mp hk
      have hka := (Gap.of_mem_left (List.mem_of_mem_drop hk)).1
      have hlb := (Gap.of_mem_right (List.mem_of_mem_drop hl)).2
      have hstart := (le_of_mem_gaps hrest hg).1
      refine ⟨(a, b), List.mem_cons_self, ?_⟩
      simp only [Before] at hlb ⊢
      omega
    · obtain ⟨q, hq, hbetween⟩ := ih hrest hk hl
      exact ⟨q, List.mem_cons_of_mem _ hq, hbetween⟩

/-- A trail leaves positions without a partner on one side of a gap at most. -/
theorem oneSided_ofTrail {n m : ℕ} {trail : Trail} (h : Descends n m trail.chain) :
    (ofTrail n m trail).OneSided := by
  intro i hi j hj hgap
  obtain ⟨p, hp, hbetween⟩ := exists_match_between h.ascends_reverse hi hj
  exact hbetween (hgap p hp)

/-- An alignment leaves positions without a partner on one side of a gap at most. -/
theorem oneSided_align (ss ts : List Statement) : (align ss ts).OneSided := by
  rcases align_eq_or_eq ss ts with h | h
  · rw [h]
    exact oneSided_ofTrail (descends_bestTrail_reverse ss ts)
  · rw [h]
    exact (oneSided_ofTrail (descends_bestTrail_reverse ts ss)).swapped

/-- The matches of an alignment go up strictly on both sides, within the two lists. -/
theorem ascends_matched_align (ss ts : List Statement) :
    Ascends ss.length ts.length 0 0 (align ss ts).matched := by
  rcases align_eq_or_eq ss ts with h | h
  · rw [h]
    exact (descends_bestTrail_reverse ss ts).ascends_reverse
  · rw [h]
    exact (descends_bestTrail_reverse ts ss).ascends_reverse.swap

/-! ### Statements at aligned places -/

/-- A pair of positions as a pair of places. -/
def placesOf (p : ℕ × ℕ) : ℤ × ℤ := (p.1, p.2)

/-- Places come in the order of their positions. -/
theorem comparePlaces_placesOf (p q : ℕ × ℕ) :
    Differences.comparePlaces (placesOf p) (placesOf q) = comparePairs p q := by
  have hcast (i j : ℕ) : compare (i : ℤ) (j : ℤ) = compare i j := by
    simp only [compare, compareOfLessAndEq, Int.ofNat_lt, Int.natCast_inj]
  simp only [Differences.comparePlaces, comparePairs, compareLex, compareOn, placesOf, hcast]

section Places

variable {a : Alignment} {ss ts : List Statement}
  (h : ∀ p ∈ a.aligned, p.1 < ss.length ∧ p.2 < ts.length)

include h

/-- Aligned positions within the two lists have their statements, which are the aligned pairs. -/
theorem mapM_pairAt_aligned :
    (a.aligned.map placesOf).mapM (Differences.pairAt ss ts) = .ok (a.pairsOf ss ts) := by
  rw [List.mapM_map, pairsOf]
  refine mapM_eq_ok_filterMap fun p hp ↦ ?_
  obtain ⟨hs, ht⟩ := h p hp
  refine ⟨⟨p.1, p.2, ss[p.1], ts[p.2]⟩, ?_, ?_⟩
  · have hleft := (fetch_eq_ok_iff ss p.1 ss[p.1]).mpr (List.getElem?_eq_getElem hs)
    have hright := (fetch_eq_ok_iff ts p.2 ts[p.2]).mpr (List.getElem?_eq_getElem ht)
    simp only [Function.comp_apply, Differences.pairAt, placesOf, hleft, hright]
    rfl
  · simp only [List.getElem?_eq_getElem hs, List.getElem?_eq_getElem ht]
    rfl

/-- The differences at the matched and substituted places are those along the alignment. -/
theorem atPlaces_aligned :
    Differences.atPlaces ss ts ((a.matched ++ a.substituted).map placesOf)
      (!a.leftOnly.isEmpty || !a.rightOnly.isEmpty) = .ok (Differences.along ss ts a) := by
  have hsort : sortBy Differences.comparePlaces ((a.matched ++ a.substituted).map placesOf) =
      a.aligned.map placesOf := by
    rw [← map_sortBy]
    simp only [comparePlaces_placesOf]
    rfl
  rw [Differences.atPlaces, hsort, mapM_pairAt_aligned h]
  rfl

end Places

/-! ### The account of an alignment -/

/-- An alignment accounts for every statement of two lists: each position is once in a match, in a
substitution, or without a partner. -/
structure Accounts (ss ts : List Statement) (a : Alignment) : Prop where
  lefts : (a.matched.map Prod.fst ++ a.substituted.map Prod.fst ++ a.leftOnly).Perm
    (List.range ss.length)
  rights : (a.matched.map Prod.snd ++ a.substituted.map Prod.snd ++ a.rightOnly).Perm
    (List.range ts.length)
  /-- Aligned pairs go up strictly on both sides. -/
  pairwise : a.aligned.Pairwise Before
  /-- None of the aligned statements is missed when they are looked up. -/
  mapM_pairAt : (a.aligned.map placesOf).mapM (Differences.pairAt ss ts) = .ok (a.pairsOf ss ts)
  atPlaces : Differences.atPlaces ss ts ((a.matched ++ a.substituted).map placesOf)
    (!a.leftOnly.isEmpty || !a.rightOnly.isEmpty) = .ok (Differences.along ss ts a)
  /-- Of every gap no more than one side has positions without a partner. -/
  oneSided : ∀ g ∈ gaps ss.length ts.length 0 0 a.matched,
    (∀ i ∈ g.left, i ∉ a.leftOnly) ∨ ∀ j ∈ g.right, j ∉ a.rightOnly
  /-- No shape is on both sides of a gap. -/
  not_matches : ∀ g ∈ gaps ss.length ts.length 0 0 a.matched,
    ∀ i ∈ g.left, ∀ j ∈ g.right, ¬ Matches ss ts (i, j)
  substituted : ∀ p ∈ a.substituted,
    ∃ s t, ss[p.1]? = some s ∧ ts[p.2]? = some t ∧ s.shape ≠ t.shape

/-- The positions of aligned pairs are those of matches and substitutions. -/
theorem map_aligned_perm (a : Alignment) (side : ℕ × ℕ → ℕ) :
    (a.aligned.map side).Perm (a.matched.map side ++ a.substituted.map side) := by
  rw [← List.map_append]
  exact (sortBy_perm comparePairs _).map side

/-- Alignments account for every statement. Each position of either list is in one match, in one
substitution, or without a partner, and only once. The aligned pairs go up strictly on both sides,
and their statements are found in the two lists. Of every gap between matches no more than one side
has positions without a partner, and no shape is on both sides, so that substituted statements
differ in shape. -/
theorem accounts_align (ss ts : List Statement) : Accounts ss ts (align ss ts) := by
  have hascends := ascends_aligned_align ss ts
  have hbounds : ∀ p ∈ (align ss ts).aligned, p.1 < ss.length ∧ p.2 < ts.length :=
    fun p hp ↦ (hascends.mem_bounds hp).2.2
  have hgap {g : Gap} (hg : g ∈ gaps ss.length ts.length 0 0 (align ss ts).matched) {i j : ℕ}
      (hi : i ∈ g.left) (hj : j ∈ g.right) : (align ss ts).SameGap i j :=
    before_or_before_of_mem_gaps (ascends_matched_align ss ts) hg hi hj
  refine ⟨?_, ?_, hascends.pairwise, mapM_pairAt_aligned hbounds, atPlaces_aligned hbounds, ?_, ?_,
    ?_⟩
  · exact ((map_aligned_perm _ _).symm.append_right _).trans (firsts_align_perm ss ts)
  · exact ((map_aligned_perm _ _).symm.append_right _).trans (seconds_align_perm ss ts)
  · intro g hg
    by_cases hleft : ∀ i ∈ g.left, i ∉ (align ss ts).leftOnly
    · exact Or.inl hleft
    · push Not at hleft
      obtain ⟨i, hi, hleftOnly⟩ := hleft
      exact Or.inr fun j hj hrightOnly ↦
        oneSided_align ss ts i hleftOnly j hrightOnly (hgap hg hi hj)
  · exact fun g hg i hi j hj ↦ not_matches_align_of_sameGap (hgap hg hi hj)
  · intro p hp
    obtain ⟨hs, ht⟩ := hbounds p (mem_sortBy.mpr (List.mem_append_right _ hp))
    have hleft := List.getElem?_eq_getElem hs
    have hright := List.getElem?_eq_getElem ht
    refine ⟨ss[p.1], ts[p.2], hleft, hright, fun hshape ↦ ?_⟩
    exact not_matches_align_of_sameGap (sameGap_of_mem_substituted hascends.pairwise hp)
      ⟨ss[p.1], ts[p.2], hleft, hright, hshape⟩

/-- Between two matches the statements are paired by their place, and one is left over. -/
example :
    let call : String → Statement := fun shape ↦ { shape, kind := "expression" }
    let alignment := align [call "a", call "if", call "b", call "c"]
      [call "a", call "while", call "c"]
    alignment.matched = [(0, 0), (3, 2)] ∧ alignment.substituted = [(1, 1)] ∧
      alignment.leftOnly = [2] ∧ alignment.rightOnly = [] := by
  decide +kernel

end Alignment

end NearClone
