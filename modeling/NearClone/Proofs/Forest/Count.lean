import NearClone.Proofs.Forest.Edges

/-!
# The number of trees

To shorten a path leaves the roots as they are (`Compresses.roots_eq`), and to hang one root below
another one takes a single one away (`Hangs.roots_subset`). So a union leaves at most one root less
(`Ranked.card_roots_le_union`), and in a forest of edges there are at least as many roots as indices
beyond the number of edges (`le_card_roots_joinAll_add`).
-/

set_option autoImplicit false
set_option relaxedAutoImplicit false

namespace NearClone.Forest

variable {f g : Forest} {n a b i j low top : ℕ} {edges : List (ℕ × ℕ)}

/-- The roots of a forest. -/
def roots (f : Forest) : Finset ℕ := (Finset.range f.size).filter fun i ↦ f.parentOf i = i

@[simp]
theorem mem_roots : i ∈ f.roots ↔ f.IsRoot i := by
  rw [roots, Finset.mem_filter, Finset.mem_range]
  exact ⟨fun h ↦ ⟨h.1, h.2⟩, fun h ↦ ⟨h.lt_size, h.parentOf_eq⟩⟩

/-- Of single indices each is a root. -/
theorem roots_singletons (n : ℕ) : (singletons n).roots = Finset.range n := by
  ext i
  rw [roots, size_singletons, Finset.mem_filter, Finset.mem_range]
  refine and_iff_left_of_imp fun hi ↦ ?_
  rw [parentOf, singletons, Array.getElem?_range, if_pos hi, Option.getD_some]

/-- Links that skip leave the roots as they are. -/
theorem Compresses.roots_eq (hf : f.Ranked) (hfg : Compresses f g) : g.roots = f.roots := by
  have hself (k : ℕ) : g.parentOf k = k ↔ f.parentOf k = k := by
    rcases hfg.parentOf_eq_or k with hparent | hroot
    · rw [hparent]
    · rw [hroot]
      constructor
      · intro hk
        rw [← hk]
        exact hf.parentOf_root k
      · exact hf.root_eq_self
  simp only [roots, hfg.size_eq, hself]

/-- Only the root that is hung below another one is none any more. -/
theorem Hangs.roots_subset (hfg : Hangs f g low top) : f.roots ⊆ insert low g.roots := by
  intro k hk
  obtain ⟨hsize, hself⟩ := mem_roots.mp hk
  by_cases hlow : k = low
  · exact Finset.mem_insert.mpr (Or.inl hlow)
  · refine Finset.mem_insert_of_mem (mem_roots.mpr ⟨hfg.size_eq.symm ▸ hsize, ?_⟩)
    rw [hfg.parentOf_eq, if_neg hlow, hself]

namespace Ranked

/-- To link two roots leaves at most one root less. -/
theorem card_roots_le_link (hf : f.Ranked) (ha : f.IsRoot a) (hb : f.IsRoot b) :
    f.roots.card ≤ (f.link a b).roots.card + 1 := by
  have hhangs {low top : ℕ} (h : Hangs f (f.link a b) low top) :
      f.roots.card ≤ (f.link a b).roots.card + 1 :=
    (Finset.card_le_card h.roots_subset).trans (Finset.card_insert_le low _)
  by_cases hab : a = b
  · rw [Forest.link, if_pos hab]
    exact Nat.le_succ _
  · rcases hf.hangs_link ha hb hab with h | h
    · exact hhangs h
    · exact hhangs h

/-- A union leaves at most one root less. -/
theorem card_roots_le_union (hf : f.Ranked) (hi : i < f.size) (hj : j < f.size) :
    f.roots.card ≤ (f.union i j).roots.card + 1 := by
  have hboth := hf.compresses_compress_compress hi hj
  rw [hf.union_eq_link hi, ← hboth.roots_eq hf]
  exact (hboth.ranked hf).card_roots_le_link (hboth.isRoot_root hf hi) (hboth.isRoot_root hf hj)

/-- Edges leave at most as many roots less as there are edges. -/
theorem card_roots_le_joinAll (hf : f.Ranked) (h : Within f.size edges) :
    f.roots.card ≤ (f.joinAll edges).roots.card + edges.length := by
  induction edges generalizing f with
  | nil => exact Nat.le_refl _
  | cons e edges ih =>
    obtain ⟨hleft, hright⟩ := h e List.mem_cons_self
    have hstep := hf.card_roots_le_union hleft hright
    have hedges := ih (hf.union hleft hright) h.tail
    show f.roots.card ≤ ((f.union e.1 e.2).joinAll edges).roots.card + (edges.length + 1)
    omega

end Ranked

/-- There are at least as many trees as indices beyond the number of edges. -/
theorem le_card_roots_joinAll_add (h : Within n edges) :
    n ≤ ((singletons n).joinAll edges).roots.card + edges.length := by
  have hwithin : Within (singletons n).size edges := by rwa [size_singletons]
  have hroots := (ranked_singletons n).card_roots_le_joinAll hwithin
  rwa [roots_singletons, Finset.card_range] at hroots

end NearClone.Forest
