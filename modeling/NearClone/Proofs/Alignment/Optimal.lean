import Mathlib.Data.Prod.Lex
import NearClone.Proofs.Alignment.Order

/-!
# Alignments are optimal

A chain of matches is worth its length first, and the number of its fine matches second. By this
order a best trail is the best of its choices (`Trail.worth_chooseTrail`), and one more match keeps
the order of two trails (`Trail.worth_extend_le`). So the best trails of shorter lists are all that
a best trail needs, and no chain that descends along the two lists is worth more than it
(`worth_le_worth_bestTrail`). Read forwards, the matches of an alignment are a chain, and no chain
between the two lists is worth more (`optimal_align`).
-/

set_option autoImplicit false
set_option relaxedAutoImplicit false

namespace NearClone.Alignment

/-! ### Chains and their worth -/

/-- The statements at a pair of positions are there, and have the same shape. -/
def Matches (ss ts : List Statement) (p : ℕ × ℕ) : Prop :=
  ∃ s t, ss[p.1]? = some s ∧ ts[p.2]? = some t ∧ s.shape = t.shape

/-- Whether the statements at a pair of positions are there, and have the same fine shape. -/
def isFine (ss ts : List Statement) (p : ℕ × ℕ) : Bool :=
  match ss[p.1]?, ts[p.2]? with
  | some s, some t => s.fineShape = t.fineShape
  | _, _ => false

/-- A chain of matches between two lists: pairs of equal shape that go up strictly on both sides. -/
structure IsChain (ss ts : List Statement) (chain : List (ℕ × ℕ)) : Prop where
  pairwise : chain.Pairwise Before
  forall_matches : ∀ p ∈ chain, Matches ss ts p

/-- How many matches of a chain are fine. -/
def fineCount (ss ts : List Statement) (chain : List (ℕ × ℕ)) : ℕ := chain.countP (isFine ss ts)

/-- What a chain is worth: its length, and between chains of one length its fine matches. -/
def worth (ss ts : List Statement) (chain : List (ℕ × ℕ)) : ℕ ×ₗ ℕ :=
  toLex (chain.length, fineCount ss ts chain)

/-- A list goes on behind its beginnings. -/
theorem getElem?_of_isPrefix {ss ss' : List Statement} (h : ss <+: ss') {i : ℕ}
    (hi : i < ss.length) : ss'[i]? = ss[i]? := by
  rw [List.prefix_iff_getElem?.mp h i hi, List.getElem?_eq_getElem hi]

section Prefix

variable {ss ss' ts ts' : List Statement} (hs : ss <+: ss') (ht : ts <+: ts')

include hs ht

/-- Whether statements match does not depend on those behind them. -/
theorem matches_of_isPrefix {p : ℕ × ℕ} (hp : p.1 < ss.length ∧ p.2 < ts.length) :
    Matches ss' ts' p ↔ Matches ss ts p := by
  rw [Matches, Matches, getElem?_of_isPrefix hs hp.1, getElem?_of_isPrefix ht hp.2]

/-- What a chain is worth does not depend on the statements behind it. -/
theorem worth_of_isPrefix {chain : List (ℕ × ℕ)}
    (hchain : ∀ p ∈ chain, p.1 < ss.length ∧ p.2 < ts.length) :
    worth ss' ts' chain = worth ss ts chain := by
  have hfine : fineCount ss' ts' chain = fineCount ss ts chain := by
    refine List.countP_congr fun p hp ↦ ?_
    rw [isFine, isFine, getElem?_of_isPrefix hs (hchain p hp).1,
      getElem?_of_isPrefix ht (hchain p hp).2]
  rw [worth, worth, hfine]

end Prefix

/-- A chain read backwards is worth the same. -/
theorem worth_reverse (ss ts : List Statement) (chain : List (ℕ × ℕ)) :
    worth ss ts chain.reverse = worth ss ts chain := by
  rw [worth, worth, fineCount, List.countP_reverse, List.length_reverse, fineCount]

/-! ### The worth of trails -/

namespace Trail

/-- What a trail is worth. -/
def worth (t : Trail) : ℕ ×ₗ ℕ := toLex (t.coarse, t.fine)

/-- One trail covers another if it is worth at least as much. -/
theorem covers_iff (a b : Trail) : a.covers b = true ↔ b.worth ≤ a.worth := by
  rw [worth, worth, Prod.Lex.toLex_le_toLex, covers, Bool.or_eq_true, Bool.and_eq_true,
    decide_eq_true_eq, decide_eq_true_eq, decide_eq_true_eq]

/-- The better of two trails is worth what either is at most. -/
theorem worth_best (a b : Trail) : (a.best b).worth = max a.worth b.worth := by
  unfold best
  split
  · next hcovers => exact (max_eq_left ((covers_iff a b).mp hcovers)).symm
  · next hcovers =>
    exact (max_eq_right (le_of_not_ge fun hle ↦ hcovers ((covers_iff a b).mpr hle))).symm

/-- One more match keeps the order of two trails, and a fine one is worth more. -/
theorem worth_extend_le {a b : Trail} {isFine : Bool} (h : a.worth ≤ b.worth) (i j k l : ℕ) :
    (a.extend isFine i j).worth ≤ (b.extend isFine k l).worth := by
  rw [worth, worth, Prod.Lex.toLex_le_toLex] at h ⊢
  simp only [extend]
  omega

/-- A chosen trail is worth what any of its choices is at most. -/
theorem worth_chooseTrail (s t : Statement) (i j : ℕ)
    (withoutLeft withoutRight withoutBoth : Trail) :
    (chooseTrail s t i j withoutLeft withoutRight withoutBoth).worth =
      if s.shape = t.shape then
        max (withoutBoth.extend (s.fineShape = t.fineShape) i j).worth
          (max withoutLeft.worth withoutRight.worth)
      else max withoutLeft.worth withoutRight.worth := by
  rw [← worth_best withoutLeft, ← worth_best]
  unfold chooseTrail
  split <;> rfl

end Trail

/-! ### Chains read backwards -/

/-- Every pair of a chain that descends is below its bounds. -/
theorem Descends.mem_bounds {n m : ℕ} {chain : List (ℕ × ℕ)} (h : Descends n m chain) {p : ℕ × ℕ}
    (hp : p ∈ chain) : p.1 < n ∧ p.2 < m := by
  have hbounds := h.ascends_reverse.mem_bounds (List.mem_reverse.mpr hp)
  exact ⟨hbounds.2.2.1, hbounds.2.2.2⟩

/-- Pairs within two bounds that go up strictly on both sides descend when read backwards. -/
theorem descends_reverse {n m : ℕ} {chain : List (ℕ × ℕ)} (hpairwise : chain.Pairwise Before)
    (hbounds : ∀ p ∈ chain, p.1 < n ∧ p.2 < m) : Descends n m chain.reverse := by
  induction chain using List.reverseRecOn generalizing n m with
  | nil => trivial
  | append_singleton chain p ih =>
    obtain ⟨hchain, -, hbefore⟩ := List.pairwise_append.mp hpairwise
    have hp := hbounds p (List.mem_append_right _ (List.mem_singleton_self p))
    rw [List.reverse_append, List.reverse_singleton, List.singleton_append]
    exact ⟨hp.1, hp.2, ih hchain fun q hq ↦ hbefore q hq p (List.mem_singleton_self p)⟩

/-- A chain of matches between two lists that are given backwards, the last match first. -/
structure Retraces (ss ts : List Statement) (chain : List (ℕ × ℕ)) : Prop where
  descends : Descends ss.length ts.length chain
  forall_matches : ∀ p ∈ chain, Matches ss.reverse ts.reverse p

namespace Retraces

variable {ss ss' ts ts' : List Statement} {chain : List (ℕ × ℕ)}

/-- A chain that ends earlier is one between the shorter lists. -/
theorem of_isPrefix (h : Retraces ss' ts' chain) (hs : ss.reverse <+: ss'.reverse)
    (ht : ts.reverse <+: ts'.reverse) (hchain : Descends ss.length ts.length chain) :
    Retraces ss ts chain := by
  refine ⟨hchain, fun p hp ↦ (matches_of_isPrefix hs ht ?_).mp (h.forall_matches p hp)⟩
  rw [List.length_reverse, List.length_reverse]
  exact hchain.mem_bounds hp

/-- A chain between two lists is one between longer ones. -/
theorem mono (h : Retraces ss ts chain) (hs : ss.reverse <+: ss'.reverse)
    (ht : ts.reverse <+: ts'.reverse) : Retraces ss' ts' chain := by
  have hleft := hs.length_le
  have hright := ht.length_le
  rw [List.length_reverse, List.length_reverse] at hleft hright
  refine ⟨h.descends.mono hleft hright, fun p hp ↦ (matches_of_isPrefix hs ht ?_).mpr
    (h.forall_matches p hp)⟩
  rw [List.length_reverse, List.length_reverse]
  exact h.descends.mem_bounds hp

/-- Between longer lists a chain is worth the same. -/
theorem worth_eq (h : Retraces ss ts chain) (hs : ss.reverse <+: ss'.reverse)
    (ht : ts.reverse <+: ts'.reverse) :
    worth ss'.reverse ts'.reverse chain = worth ss.reverse ts.reverse chain := by
  refine worth_of_isPrefix hs ht fun p hp ↦ ?_
  rw [List.length_reverse, List.length_reverse]
  exact h.descends.mem_bounds hp

end Retraces

/-- The last statement of a list that is given backwards. -/
theorem getElem?_reverse_cons_length (s : Statement) (ss : List Statement) :
    (s :: ss).reverse[ss.length]? = some s := by
  have hlength : ss.reverse.length = ss.length := List.length_reverse
  rw [List.reverse_cons, ← hlength, List.getElem?_concat_length]

/-- The beginnings of a list that is given backwards. -/
theorem reverse_isPrefix_reverse_cons (s : Statement) (ss : List Statement) :
    ss.reverse <+: (s :: ss).reverse :=
  ⟨[s], List.reverse_cons.symm⟩

section Last

variable {s t : Statement} {ss ts : List Statement} {chain : List (ℕ × ℕ)}

/-- The last statements of two lists match if they have the same shape. -/
theorem matches_last_iff :
    Matches (s :: ss).reverse (t :: ts).reverse (ss.length, ts.length) ↔ s.shape = t.shape := by
  simp only [Matches, getElem?_reverse_cons_length, Option.some.injEq]
  constructor
  · rintro ⟨_, _, rfl, rfl, hshape⟩
    exact hshape
  · intro hshape
    exact ⟨s, t, rfl, rfl, hshape⟩

/-- With a match of the last statements a chain is worth what a trail is that is extended by it. -/
theorem worth_cons_last (h : Retraces ss ts chain) {trail : Trail}
    (htrail : trail.worth = worth ss.reverse ts.reverse chain) (i j : ℕ) :
    worth (s :: ss).reverse (t :: ts).reverse ((ss.length, ts.length) :: chain) =
      (trail.extend (s.fineShape = t.fineShape) i j).worth := by
  have hchain := h.worth_eq (reverse_isPrefix_reverse_cons s ss)
    (reverse_isPrefix_reverse_cons t ts)
  rw [← htrail] at hchain
  obtain ⟨hlength, hfine⟩ := Prod.ext_iff.mp (toLex.injective hchain)
  have hlast : isFine (s :: ss).reverse (t :: ts).reverse (ss.length, ts.length) =
      decide (s.fineShape = t.fineShape) := by
    simp only [isFine, getElem?_reverse_cons_length]
  refine congrArg toLex (Prod.ext ?_ ?_)
  · exact congrArg (· + 1) hlength
  · rw [fineCount, List.countP_cons, hlast]
    exact congrArg (· + _) hfine

end Last

/-! ### Best trails -/

/-- The chain of a best trail is a chain of matches, and the trail is worth what the chain is. -/
theorem retraces_bestTrail (ss ts : List Statement) :
    Retraces ss ts (bestTrail ss ts).chain ∧
      (bestTrail ss ts).worth = worth ss.reverse ts.reverse (bestTrail ss ts).chain := by
  refine bestTrail_induction
    (motive := fun ss ts trail ↦ Retraces ss ts trail.chain ∧
      trail.worth = worth ss.reverse ts.reverse trail.chain) ?_ ?_ ?_ ?_ ss ts
  · intro ss ts
    exact ⟨⟨trivial, fun p hp ↦ absurd hp List.not_mem_nil⟩, rfl⟩
  · intro s ss ts trail ⟨hchain, hworth⟩
    have hprefix := reverse_isPrefix_reverse_cons s ss
    exact ⟨hchain.mono hprefix List.prefix_rfl,
      hworth.trans (hchain.worth_eq hprefix List.prefix_rfl).symm⟩
  · intro t ss ts trail ⟨hchain, hworth⟩
    have hprefix := reverse_isPrefix_reverse_cons t ts
    exact ⟨hchain.mono List.prefix_rfl hprefix,
      hworth.trans (hchain.worth_eq List.prefix_rfl hprefix).symm⟩
  · intro s t ss ts trail hshape ⟨hchain, hworth⟩
    have hmono := hchain.mono (reverse_isPrefix_reverse_cons s ss)
      (reverse_isPrefix_reverse_cons t ts)
    refine ⟨⟨⟨Nat.lt_succ_self _, Nat.lt_succ_self _, hchain.descends⟩, ?_⟩,
      (worth_cons_last hchain hworth _ _).symm⟩
    exact List.forall_mem_cons.mpr ⟨matches_last_iff.mpr hshape, hmono.forall_matches⟩

/-- No chain of matches is worth more than the best trail. -/
theorem worth_le_worth_bestTrail {ss ts : List Statement} {chain : List (ℕ × ℕ)}
    (h : Retraces ss ts chain) :
    worth ss.reverse ts.reverse chain ≤ (bestTrail ss ts).worth := by
  have hnil (ss ts : List Statement) (trail : Trail) :
      worth ss.reverse ts.reverse [] ≤ trail.worth := by
    rw [worth, Trail.worth, Prod.Lex.toLex_le_toLex, List.length_nil, fineCount, List.countP_nil]
    omega
  induction ss generalizing ts chain with
  | nil =>
    cases chain with
    | nil => exact hnil [] ts _
    | cons p rest => exact absurd h.descends.1 (Nat.not_lt_zero _)
  | cons s ss ihs =>
    induction ts generalizing chain with
    | nil =>
      cases chain with
      | nil => exact hnil (s :: ss) [] _
      | cons p rest => exact absurd h.descends.2.1 (Nat.not_lt_zero _)
    | cons t ts iht =>
      cases chain with
      | nil => exact hnil (s :: ss) (t :: ts) _
      | cons p rest =>
        obtain ⟨i, j⟩ := p
        obtain ⟨hi, hj, hrest⟩ := h.descends
        have hs := reverse_isPrefix_reverse_cons s ss
        have ht := reverse_isPrefix_reverse_cons t ts
        rw [bestTrail_cons_cons, Trail.worth_chooseTrail]
        -- The first match leaves out the last statement of either list, or it is of both.
        rcases Nat.lt_succ_iff_lt_or_eq.mp hi with hi | rfl
        · have hchain := h.of_isPrefix hs List.prefix_rfl ⟨hi, hj, hrest⟩
          have hle := ihs hchain
          rw [hchain.worth_eq hs List.prefix_rfl]
          split
          · exact le_max_of_le_right (le_max_of_le_left hle)
          · exact le_max_of_le_left hle
        rcases Nat.lt_succ_iff_lt_or_eq.mp hj with hj | rfl
        · have hchain := h.of_isPrefix List.prefix_rfl ht ⟨hi, hj, hrest⟩
          have hle := iht hchain
          rw [hchain.worth_eq List.prefix_rfl ht]
          split
          · exact le_max_of_le_right (le_max_of_le_right hle)
          · exact le_max_of_le_right hle
        · have hshape := matches_last_iff.mp (h.forall_matches _ List.mem_cons_self)
          have hchain : Retraces ss ts rest :=
            Retraces.of_isPrefix ⟨hrest.mono hi.le hj.le,
              fun p hp ↦ h.forall_matches p (List.mem_cons_of_mem _ hp)⟩ hs ht hrest
          let trail : Trail := ⟨rest.length, fineCount ss.reverse ts.reverse rest, rest⟩
          have hworth : trail.worth = worth ss.reverse ts.reverse rest := rfl
          have hle : trail.worth ≤ (bestTrail ss ts).worth := ihs hchain
          rw [if_pos hshape, worth_cons_last hchain hworth ss.length ts.length]
          exact le_max_of_le_left (Trail.worth_extend_le hle _ _ _ _)

/-! ### Alignments -/

/-- A chain between two lists is one that retraces them, read backwards. -/
theorem isChain_iff {ss ts : List Statement} {chain : List (ℕ × ℕ)} :
    IsChain ss ts chain ↔ Retraces ss.reverse ts.reverse chain.reverse := by
  constructor
  · intro h
    refine ⟨?_, ?_⟩
    · rw [List.length_reverse, List.length_reverse]
      refine descends_reverse h.pairwise fun p hp ↦ ?_
      obtain ⟨s, t, hs, ht, -⟩ := h.forall_matches p hp
      exact ⟨(List.getElem?_eq_some_iff.mp hs).1, (List.getElem?_eq_some_iff.mp ht).1⟩
    · rw [List.reverse_reverse, List.reverse_reverse]
      exact fun p hp ↦ h.forall_matches p (List.mem_reverse.mp hp)
  · intro h
    have hpairwise := h.descends.ascends_reverse.pairwise
    have hmatches := h.forall_matches
    rw [List.reverse_reverse] at hpairwise
    rw [List.reverse_reverse, List.reverse_reverse] at hmatches
    exact ⟨hpairwise, fun p hp ↦ hmatches p (List.mem_reverse.mpr hp)⟩

/-- The matches of an alignment are a chain between the two lists, it counts the fine ones among
them, and no chain between the lists is longer, or as long with more fine matches. -/
structure Optimal (ss ts : List Statement) (a : Alignment) : Prop where
  isChain : IsChain ss ts a.matched
  fine_eq : a.fine = fineCount ss ts a.matched
  worth_le : ∀ chain, IsChain ss ts chain → worth ss ts chain ≤ toLex (a.matched.length, a.fine)

/-- A directed alignment is optimal. -/
theorem optimal_directed (ss ts : List Statement) : Optimal ss ts (directed ss ts) := by
  obtain ⟨hchain, hworth⟩ := retraces_bestTrail ss.reverse ts.reverse
  have hmatched : (directed ss ts).matched.reverse = (bestTrail ss.reverse ts.reverse).chain :=
    List.reverse_reverse _
  rw [List.reverse_reverse, List.reverse_reverse, ← hmatched, worth_reverse] at hworth
  obtain ⟨hlength, hfine⟩ := Prod.ext_iff.mp (toLex.injective hworth)
  refine ⟨isChain_iff.mpr (hmatched ▸ hchain), hfine, fun chain h ↦ ?_⟩
  have hle := worth_le_worth_bestTrail (isChain_iff.mp h)
  rw [List.reverse_reverse, List.reverse_reverse, worth_reverse] at hle
  exact hle.trans_eq (congrArg toLex (Prod.ext hlength rfl))

section Swap

variable {ss ts : List Statement} {chain : List (ℕ × ℕ)}

/-- A chain seen from the other side. -/
theorem IsChain.swap (h : IsChain ss ts chain) : IsChain ts ss (chain.map Prod.swap) := by
  refine ⟨List.pairwise_map.mpr (h.pairwise.imp And.symm), fun p hp ↦ ?_⟩
  obtain ⟨q, hq, rfl⟩ := List.mem_map.mp hp
  obtain ⟨s, t, hs, ht, hshape⟩ := h.forall_matches q hq
  exact ⟨t, s, ht, hs, hshape.symm⟩

/-- The fine matches of a chain are the same from either side. -/
theorem fineCount_swap (ss ts : List Statement) (chain : List (ℕ × ℕ)) :
    fineCount ts ss (chain.map Prod.swap) = fineCount ss ts chain := by
  have hfine (p : ℕ × ℕ) : isFine ts ss p.swap = isFine ss ts p := by
    simp only [isFine, Prod.fst_swap, Prod.snd_swap]
    cases ss[p.1]? <;> cases ts[p.2]? <;> simp only [eq_comm]
  rw [fineCount, List.countP_map]
  exact List.countP_congr fun p _ ↦ by rw [Function.comp_apply, hfine]

/-- An optimal alignment is optimal from the other side, too. -/
theorem Optimal.swapped {a : Alignment} (h : Optimal ss ts a) : Optimal ts ss a.swapped := by
  refine ⟨h.isChain.swap, h.fine_eq.trans (fineCount_swap ss ts a.matched).symm, ?_⟩
  intro chain hchain
  have hle := h.worth_le _ hchain.swap
  rwa [worth, fineCount_swap, List.length_map, ← length_matched_swapped] at hle

end Swap

/-- Alignments are optimal. The matches go up strictly on both sides, within the two lists, and are
between statements of equal shape, and the alignment counts those of equal fine shape. Of all chains
of this kind none has more matches, and none with as many has more that are fine. -/
theorem optimal_align (ss ts : List Statement) : Optimal ss ts (align ss ts) := by
  rcases align_eq_or_eq ss ts with h | h
  · rw [h]
    exact optimal_directed ss ts
  · rw [h]
    exact (optimal_directed ts ss).swapped

/-- Of two calls in a row that one is matched which has the same blocks nested inside. -/
example :
    let call : String → Statement := fun tree ↦
      { shape := "call", kind := "expression", treeShape := tree }
    let alignment := align [call "a", call "b"] [call "b"]
    alignment.matched = [(1, 0)] ∧ alignment.fine = 1 := by
  decide +kernel

end NearClone.Alignment
