import NearClone.Proofs.Forest.Partition

/-!
# Forests of edges

A forest that starts with single indices and joins the two ends of every edge is what calls leave
behind that add the indices and then ask for a union per edge (`runAll_edgeCalls`). All of these
unions succeed, so that two indices have the same root exactly if a chain of edges links them
(`root_joinAll_eq_iff`).
-/

set_option autoImplicit false
set_option relaxedAutoImplicit false

namespace NearClone.Forest

variable {f : Forest} {n i j : ℕ} {edges : List (ℕ × ℕ)}

/-- Joins the two ends of every edge, one after the other. -/
def joinAll (f : Forest) (edges : List (ℕ × ℕ)) : Forest :=
  edges.foldl (fun g e ↦ g.union e.1 e.2) f

/-- Every edge is between two of the first `n` indices. -/
def Within (n : ℕ) (edges : List (ℕ × ℕ)) : Prop := ∀ e ∈ edges, e.1 < n ∧ e.2 < n

/-- The edges behind the first one are between the same indices once that one is joined. -/
theorem Within.tail {e : ℕ × ℕ} (h : Within f.size (e :: edges)) :
    Within (f.union e.1 e.2).size edges := by
  rw [size_union]
  exact fun e' he' ↦ h e' (List.mem_cons_of_mem e he')

/-- The call that joins the two ends of an edge. -/
def Call.ofEdge (e : ℕ × ℕ) : Call := .union e.1 e.2

/-- The calls that add so many indices, and then join the two ends of every edge. -/
def edgeCalls (n : ℕ) (edges : List (ℕ × ℕ)) : List Call :=
  List.replicate n .add ++ edges.map Call.ofEdge

/-- One single index more. -/
theorem add_singletons (n : ℕ) : (singletons n).add = singletons (n + 1) := by
  rw [add, size_singletons, singletons, singletons, Array.range_succ, Array.replicate_succ,
    Array.append_singleton]

/-- Single indices arise by adding them. -/
theorem runAll_replicate_add (n : ℕ) : runAll {} (List.replicate n .add) = singletons n := by
  induction n with
  | zero => rfl
  | succ n ih =>
    rw [List.replicate_succ', runAll_concat, ih]
    exact add_singletons n

/-- Single indices are a ranked forest. -/
theorem ranked_singletons (n : ℕ) : (singletons n).Ranked := by
  rw [← runAll_replicate_add]
  exact ranked_empty.runAll _

/-- Calls that join the ends of edges between existing indices do so. -/
theorem runAll_map_ofEdge (h : Within f.size edges) :
    runAll f (edges.map Call.ofEdge) = f.joinAll edges := by
  induction edges generalizing f with
  | nil => rfl
  | cons e edges ih =>
    obtain ⟨hleft, hright⟩ := h e List.mem_cons_self
    have hstep : (f.run (Call.ofEdge e)).2 = f.union e.1 e.2 := by
      rw [Call.ofEdge, run_union hleft hright]
    rw [List.map_cons, runAll, List.foldl_cons, hstep]
    exact ih h.tail

/-- Joining the ends of edges adds no index. -/
@[simp]
theorem size_joinAll (f : Forest) (edges : List (ℕ × ℕ)) : (f.joinAll edges).size = f.size := by
  induction edges generalizing f with
  | nil => rfl
  | cons e edges ih => exact (ih _).trans (size_union f e.1 e.2)

/-- The forest of edges is what their calls leave behind. -/
theorem runAll_edgeCalls (h : Within n edges) :
    runAll {} (edgeCalls n edges) = (singletons n).joinAll edges := by
  have hwithin : Within (singletons n).size edges := by rwa [size_singletons]
  rw [edgeCalls, runAll, List.foldl_append]
  change runAll (runAll {} (List.replicate n .add)) _ = _
  rw [runAll_replicate_add, runAll_map_ofEdge hwithin]

/-- A forest of edges is ranked. -/
theorem ranked_joinAll (h : Within n edges) : ((singletons n).joinAll edges).Ranked := by
  rw [← runAll_edgeCalls h]
  exact ranked_empty.runAll _

/-- The unions that succeed are those of the edges. -/
theorem joined_edgeCalls_iff (h : Within n edges) :
    Joined (edgeCalls n edges) i j ↔ (i, j) ∈ edges := by
  constructor
  · rintro ⟨before, after, hcalls, -⟩
    have hmem : Call.union i j ∈ edgeCalls n edges := by
      rw [hcalls]
      exact List.mem_append_right _ List.mem_cons_self
    rcases List.mem_append.mp hmem with hadd | hedge
    · exact absurd (List.eq_of_mem_replicate hadd) Call.noConfusion
    · obtain ⟨e, he, hunion⟩ := List.mem_map.mp hedge
      obtain ⟨rfl, rfl⟩ := Call.union.inj hunion
      exact he
  · intro hmem
    obtain ⟨before, after, rfl⟩ := List.append_of_mem hmem
    have hbefore : Within n before := fun e he ↦ h e (List.mem_append_left _ he)
    have hsize : (runAll {} (edgeCalls n before)).size = n := by
      rw [runAll_edgeCalls hbefore, size_joinAll, size_singletons]
    obtain ⟨hi, hj⟩ := h (i, j) hmem
    refine ⟨edgeCalls n before, after.map Call.ofEdge, ?_, ?_⟩
    · rw [edgeCalls, edgeCalls, List.map_append, List.map_cons, List.append_assoc]
      rfl
    · rw [run_union (hi.trans_eq hsize.symm) (hj.trans_eq hsize.symm)]

/-- In a forest of edges two indices have the same root exactly if a chain of edges links them. -/
theorem root_joinAll_eq_iff (h : Within n edges) (k l : ℕ) :
    ((singletons n).joinAll edges).root k = ((singletons n).joinAll edges).root l ↔
      Relation.EqvGen (fun i j ↦ (i, j) ∈ edges) k l := by
  have hjoined : Joined (edgeCalls n edges) = fun i j ↦ (i, j) ∈ edges := by
    funext i j
    exact propext (joined_edgeCalls_iff h)
  rw [← runAll_edgeCalls h, root_runAll_eq_iff, Linked, hjoined]

end NearClone.Forest
