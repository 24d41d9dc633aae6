import NearClone.Cluster.Grouping
import NearClone.Proofs.Forest.Edges

/-!
# Trees of clone pairs

Grouping numbers the locations of the clone pairs and joins the two ends of every pair in a forest,
so that a fragment has a tree, which depends on its location alone (`treeOf_congr`). Both ends of a
pair are in one tree (`treeOf_of_mem_ends`). Two pairs are in the same tree exactly if a chain of
pairs leads from one to the other of which neighbours share a location (`treeOf_eq_iff_chained`).
-/

set_option autoImplicit false
set_option relaxedAutoImplicit false

namespace NearClone

variable {α : Type}

namespace ClonePair

/-- The two pairs share a location. -/
def Meets (p q : ClonePair α) : Prop := ∃ e ∈ p.ends, ∃ e' ∈ q.ends, e.location = e'.location

theorem left_mem_ends (p : ClonePair α) : p.left ∈ p.ends := List.mem_cons_self

theorem right_mem_ends (p : ClonePair α) : p.right ∈ p.ends :=
  List.mem_cons_of_mem _ List.mem_cons_self

theorem Meets.symm {p q : ClonePair α} (h : p.Meets q) : q.Meets p := by
  obtain ⟨e, he, e', he', hlocation⟩ := h
  exact ⟨e', he', e, he, hlocation.symm⟩

end ClonePair

namespace Cluster

open Listing

/-- A chain of the pairs, of which neighbours share a location, leads from one to the other. -/
def Chained (pairs : List (ClonePair α)) : ClonePair α → ClonePair α → Prop :=
  Relation.ReflTransGen fun p q ↦ p ∈ pairs ∧ q ∈ pairs ∧ p.Meets q

section Node

variable {nodes : List Fragment} {f g : Fragment} {i : ℕ}

/-- The number of a fragment depends on its location alone. -/
theorem nodeOf_congr (nodes : List Fragment) (h : f.location = g.location) :
    nodeOf nodes f = nodeOf nodes g := by
  rw [nodeOf, nodeOf, h]

/-- The node with the number of a fragment is at its location. -/
theorem location_getElem_nodeOf (h : nodeOf nodes f < nodes.length) :
    nodes[nodeOf nodes f].location = f.location :=
  of_decide_eq_true (List.findIdx_getElem (w := h))

/-- Fragments of the same number are at the same location. -/
theorem location_eq_of_nodeOf_eq (hf : nodeOf nodes f < nodes.length)
    (h : nodeOf nodes f = nodeOf nodes g) : f.location = g.location := by
  have hg : nodeOf nodes g < nodes.length := h ▸ hf
  rw [← location_getElem_nodeOf hf, ← location_getElem_nodeOf hg]
  simp only [h]

/-- Where no two nodes are at one location, the number of a node is its position. -/
theorem nodeOf_getElem (h : nodes.Pairwise fun f g ↦ f.location ≠ g.location)
    (hi : i < nodes.length) : nodeOf nodes nodes[i] = i := by
  have hlt : nodeOf nodes nodes[i] < nodes.length :=
    List.findIdx_lt_length_of_exists ⟨nodes[i], List.getElem_mem hi, decide_eq_true rfl⟩
  have hlocation : nodes[nodeOf nodes nodes[i]].location = nodes[i].location :=
    location_getElem_nodeOf hlt
  rcases Nat.lt_trichotomy (nodeOf nodes nodes[i]) i with hless | heq | hmore
  · exact absurd hlocation (List.pairwise_iff_getElem.mp h _ _ hlt hi hless)
  · exact heq
  · exact absurd hlocation.symm (List.pairwise_iff_getElem.mp h _ _ hi hlt hmore)

end Node

variable {pairs : List (ClonePair α)} {p q : ClonePair α} {e f g : Fragment}

/-- Every end of a pair has a number. -/
theorem nodeOf_lt (hp : p ∈ pairs) (he : e ∈ p.ends) :
    nodeOf (fragmentsOf pairs) e < (fragmentsOf pairs).length := by
  have hmem : e ∈ pairs.flatMap ClonePair.ends := List.mem_flatMap.mpr ⟨p, hp, he⟩
  obtain ⟨n, hn, hlocation⟩ := exists_mem_firstPer (fun f : Fragment ↦ f.location) hmem
  exact List.findIdx_lt_length_of_exists ⟨n, hn, by simpa using hlocation⟩

/-! ### The forest of pairs -/

/-- A pair as an edge between numbers. -/
def edgeOf (nodes : List Fragment) (p : ClonePair α) : ℕ × ℕ :=
  (nodeOf nodes p.left, nodeOf nodes p.right)

/-- The forest of pairs is that of their edges. -/
theorem forestOf_eq_joinAll (nodes : List Fragment) (pairs : List (ClonePair α)) :
    forestOf nodes pairs =
      (Forest.singletons nodes.length).joinAll (pairs.map (edgeOf nodes)) := by
  rw [forestOf, Forest.joinAll, List.foldl_map]
  rfl

/-- The edges of pairs are between numbers of fragments. -/
theorem within_edges (pairs : List (ClonePair α)) :
    Forest.Within (fragmentsOf pairs).length (pairs.map (edgeOf (fragmentsOf pairs))) := by
  intro edge hedge
  obtain ⟨p, hp, rfl⟩ := List.mem_map.mp hedge
  exact ⟨nodeOf_lt hp p.left_mem_ends, nodeOf_lt hp p.right_mem_ends⟩

/-- The tree of a fragment in the forest of pairs. -/
def treeOf (pairs : List (ClonePair α)) (f : Fragment) : ℕ :=
  (forestOf (fragmentsOf pairs) pairs).root (nodeOf (fragmentsOf pairs) f)

/-- The tree of a fragment depends on its location alone. -/
theorem treeOf_congr (pairs : List (ClonePair α)) (h : f.location = g.location) :
    treeOf pairs f = treeOf pairs g := by
  rw [treeOf, treeOf, nodeOf_congr _ h]

/-- Two fragments are in the same tree exactly if a chain of edges links their numbers. -/
theorem treeOf_eq_iff_eqvGen (pairs : List (ClonePair α)) (f g : Fragment) :
    treeOf pairs f = treeOf pairs g ↔
      Relation.EqvGen (fun i j ↦ (i, j) ∈ pairs.map (edgeOf (fragmentsOf pairs)))
        (nodeOf (fragmentsOf pairs) f) (nodeOf (fragmentsOf pairs) g) := by
  rw [treeOf, treeOf, forestOf_eq_joinAll]
  exact Forest.root_joinAll_eq_iff (within_edges pairs) _ _

/-- Both ends of a pair are in one tree. -/
theorem treeOf_of_mem_ends (hp : p ∈ pairs) (he : e ∈ p.ends) :
    treeOf pairs e = treeOf pairs p.left := by
  have hjoined : treeOf pairs p.left = treeOf pairs p.right :=
    (treeOf_eq_iff_eqvGen pairs _ _).mpr (.rel _ _ (List.mem_map_of_mem hp))
  rcases List.mem_pair.mp he with rfl | rfl
  · rfl
  · exact hjoined.symm

/-! ### Chains of pairs -/

namespace Chained

theorem of_meets (hp : p ∈ pairs) (hq : q ∈ pairs) (h : p.Meets q) : Chained pairs p q :=
  .single ⟨hp, hq, h⟩

theorem symm (h : Chained pairs p q) : Chained pairs q p := by
  induction h with
  | refl => exact .refl
  | tail _ hstep ih => exact .head ⟨hstep.2.1, hstep.1, hstep.2.2.symm⟩ ih

/-- All pairs of a chain are in one tree. -/
theorem treeOf_eq (h : Chained pairs p q) : treeOf pairs p.left = treeOf pairs q.left := by
  induction h with
  | refl => rfl
  | tail _ hstep ih =>
    obtain ⟨hr, hs, e, he, e', he', hlocation⟩ := hstep
    rw [ih, ← treeOf_of_mem_ends hr he, treeOf_congr pairs hlocation, treeOf_of_mem_ends hs he']

end Chained

/-- The pairs to which a chain leads from some pair with an end of the given number. -/
def around (pairs : List (ClonePair α)) (k : ℕ) : Set (ClonePair α) :=
  {q | ∃ p ∈ pairs, (∃ e ∈ p.ends, nodeOf (fragmentsOf pairs) e = k) ∧ Chained pairs p q}

/-- Pairs with an end of the same number meet. -/
theorem chained_of_mem_around (hp : p ∈ pairs) (he : e ∈ p.ends)
    (h : q ∈ around pairs (nodeOf (fragmentsOf pairs) e)) : Chained pairs p q := by
  obtain ⟨r, hr, ⟨e', he', hnode⟩, hchain⟩ := h
  have hlocation := location_eq_of_nodeOf_eq (nodeOf_lt hp he) hnode.symm
  exact (Chained.of_meets hp hr ⟨e, he, e', he', hlocation⟩).trans hchain

/-- Chains lead to the same pairs from both ends of an edge. -/
theorem around_eq_of_edge {k l : ℕ}
    (h : (k, l) ∈ pairs.map (edgeOf (fragmentsOf pairs))) : around pairs k = around pairs l := by
  obtain ⟨p, hp, hedge⟩ := List.mem_map.mp h
  obtain ⟨rfl, rfl⟩ := Prod.mk.inj hedge
  ext q
  constructor
  · intro hq
    exact ⟨p, hp, ⟨p.right, p.right_mem_ends, rfl⟩, chained_of_mem_around hp p.left_mem_ends hq⟩
  · intro hq
    exact ⟨p, hp, ⟨p.left, p.left_mem_ends, rfl⟩, chained_of_mem_around hp p.right_mem_ends hq⟩

/-- Two pairs are in the same tree exactly if a chain of pairs leads from one to the other. -/
theorem treeOf_eq_iff_chained (hp : p ∈ pairs) (hq : q ∈ pairs) :
    treeOf pairs p.left = treeOf pairs q.left ↔ Chained pairs p q := by
  constructor
  · intro h
    -- What chains lead to is the same at both ends of every edge, hence along all edges.
    have haround : around pairs (nodeOf (fragmentsOf pairs) p.left) =
        around pairs (nodeOf (fragmentsOf pairs) q.left) :=
      congrArg (Quot.lift (around pairs) fun _ _ ↦ around_eq_of_edge)
        (Quot.eqvGen_sound ((treeOf_eq_iff_eqvGen pairs p.left q.left).mp h))
    have hself : q ∈ around pairs (nodeOf (fragmentsOf pairs) q.left) :=
      ⟨q, hq, ⟨q.left, q.left_mem_ends, rfl⟩, .refl⟩
    exact chained_of_mem_around hp p.left_mem_ends (haround ▸ hself)
  · exact Chained.treeOf_eq

end Cluster

end NearClone
