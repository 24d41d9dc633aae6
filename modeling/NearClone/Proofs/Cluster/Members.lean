import NearClone.Proofs.Cluster.Containment
import NearClone.Proofs.Cluster.Regrouping

/-!
# What a cluster stores

A cluster stores its primary member and what it saves, and both follow from its pairs as well: the
primary member is the first of the members (`head?_members`), which are the first fragments seen at
the locations of the pairs (`mem_members_iff`), and what is saved follows from their number and the
length of the primary one. It is never negative, and at most the lines of all copies but one
(`Config.saving_nonneg`, `Config.saving_le`). `coherent_of_mem_group` states this as a whole.
-/

set_option autoImplicit false
set_option relaxedAutoImplicit false

namespace NearClone

variable {α : Type} {c : Config α}

/-- Nothing is lost by keeping one copy. -/
theorem Config.saving_nonneg (c : Config α) (copies lines : Int) : 0 ≤ c.saving copies lines :=
  Int.le_max_left _ _

/-- No more is saved than the lines of all copies but one. -/
theorem Config.saving_le {copies lines : ℕ} (hoverhead : 0 ≤ c.callOverhead)
    (hcopies : 1 ≤ copies) : c.saving copies lines ≤ (copies - 1) * lines := by
  have hothers : (0 : ℤ) ≤ (copies - 1) * lines :=
    Int.mul_nonneg (by omega) (Int.natCast_nonneg lines)
  have hcalls : 0 ≤ c.callOverhead * copies :=
    Int.mul_nonneg hoverhead (Int.natCast_nonneg copies)
  refine Int.max_le.mpr ⟨hothers, ?_⟩
  rw [Int.sub_mul, Int.one_mul]
  omega

namespace Cluster

open Listing

variable {k : Cluster α} {pairs : List (ClonePair α)} {f : Fragment}

/-- The primary member is the first of the members. -/
theorem head?_members (hk : k ∈ group c pairs) : k.members.head? = some k.primary := by
  rw [members, head?_sortBy]
  exact (of_ofTree? (ofTree?_of_mem_group hk)).1

/-- The primary member is a member. -/
theorem primary_mem_members (hk : k ∈ group c pairs) : k.primary ∈ k.members :=
  List.mem_of_head? (head?_members hk)

/-- No member starts before the primary one. -/
theorem compareStart_primary_ne_lt (hk : k ∈ group c pairs) (hf : f ∈ k.members) :
    f.compareStart k.primary ≠ .lt := by
  obtain ⟨p, hp, hend⟩ := exists_pair_of_mem_members hf
  have hle := isLE_of_mem_ends hk hp hend
  intro hlt
  rw [Std.OrientedCmp.gt_of_lt hlt] at hle
  exact Bool.noConfusion hle

/-- The members are the first fragments seen at their locations. -/
theorem mem_members_iff : f ∈ k.members ↔
    (k.pairs.flatMap ClonePair.ends).find? (fun e ↦ e.location = f.location) = some f := by
  rw [members, mem_sortBy, fragmentsOf, mem_firstPer_iff]

/-- What a cluster stores is what follows from its pairs. -/
structure Coherent (c : Config α) (k : Cluster α) : Prop where
  /-- The primary member is the first of the members. -/
  head?_members : k.members.head? = some k.primary
  /-- No member starts before it. -/
  compareStart_ne_lt : ∀ f ∈ k.members, f.compareStart k.primary ≠ .lt
  /-- No two members are at one location. -/
  nodup_places : (k.members.map (·.location)).Nodup
  /-- The member at a location is the first fragment of the pairs seen there. -/
  mem_members_iff : ∀ f, f ∈ k.members ↔
    (k.pairs.flatMap ClonePair.ends).find? (fun e ↦ e.location = f.location) = some f
  /-- One copy is kept, and called at every occurrence. -/
  saving_eq : k.saving = max 0 (k.occurrences * k.primary.length -
    (k.primary.length + c.callOverhead * k.occurrences))
  /-- Nothing is lost. -/
  saving_nonneg : 0 ≤ k.saving
  /-- No more is saved than the lines of all copies but one. Assumes: no negative overhead, as in
  every admissible configuration. -/
  saving_le : 0 ≤ c.callOverhead → k.saving ≤ (k.occurrences - 1) * k.primary.length

/-- Every cluster is coherent, whatever the pairs: also where different fragments are at one
location, or start at one place. -/
theorem coherent_of_mem_group (hk : k ∈ group c pairs) : k.Coherent c where
  head?_members := head?_members hk
  compareStart_ne_lt := fun _ hf ↦ compareStart_primary_ne_lt hk hf
  nodup_places := k.nodup_places
  mem_members_iff := fun _ ↦ mem_members_iff
  saving_eq := saving_eq hk
  saving_nonneg := by
    rw [saving_eq hk]
    exact c.saving_nonneg _ _
  saving_le := by
    intro hoverhead
    have hcopies : 1 ≤ k.occurrences := List.length_pos_of_mem (primary_mem_members hk)
    rw [saving_eq hk]
    exact Config.saving_le hoverhead hcopies

/-- Two fragments are at one location, and a third one starts where they do. The first one seen is
the primary member, the second one no member at all. -/
theorem coherent_of_mem_group_clash :
    let fragment : Int → Int → ℕ → Fragment := fun first last length ↦
      { statements := List.replicate length { shape := "call", kind := "expression" }
        location := ⟨"main", ⟨first, last, 1, 1⟩⟩ }
    let pair : Fragment → Fragment → ClonePair ℚ := fun f g ↦ ⟨f, g, Similarity.empty⟩
    let pairs := [pair (fragment 11 15 5) (fragment 1 5 5),
      pair (fragment 1 9 6) (fragment 11 15 5), pair (fragment 1 5 7) (fragment 1 9 6)]
    let k : Cluster ℚ := ⟨fragment 1 5 5, pairs, 7, none⟩
    k ∈ group Config.default pairs ∧ 0 ≤ (Config.default : Config ℚ).callOverhead ∧
      k.Coherent Config.default ∧ k.saving ≤ (k.occurrences - 1) * k.primary.length ∧
        fragment 1 5 7 ∉ k.members := by
  intro fragment pair pairs k
  have hk : k ∈ group Config.default pairs := mem_group_iff.mpr (by decide +kernel)
  have hoverhead : 0 ≤ (Config.default : Config ℚ).callOverhead := by decide
  have hcoherent := coherent_of_mem_group hk
  refine ⟨hk, hoverhead, hcoherent, hcoherent.saving_le hoverhead, ?_⟩
  rw [hcoherent.mem_members_iff]
  decide +kernel

end Cluster

end NearClone
