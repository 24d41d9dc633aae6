import NearClone.Proofs.Forest.Union
import Mathlib.Logic.Relation
import Mathlib.Data.List.Induction

/-!
# Sets after many calls

A call adds an index, joins two sets, or at most shortens paths (`Ranked.run_cases`). So what one
call does to the sets is to join those of a union that succeeds (`Ranked.root_run_eq_iff`). After
any calls, starting with no index, the forest is ranked, and two indices have the same root exactly
if a chain of unions that succeeded links them (`root_runAll_eq_iff`). Together with what a call
that fails leaves behind, this is `partition_runAll`.
-/

set_option autoImplicit false
set_option relaxedAutoImplicit false

namespace NearClone.Forest

variable {f : Forest} {c : Call} {i j k l : ℕ}

/-! ### One call -/

/-- The indices that a call is about. -/
def Call.indices : Call → List ℕ
  | .add => []
  | .find i => [i]
  | .union i j => [i, j]

theorem run_find (hi : i < f.size) : f.run (.find i) = (.found (f.root i), f.compress i) :=
  if_pos hi

theorem run_find_of_not_lt (hi : ¬ i < f.size) :
    f.run (.find i) = (.missing (.ofPlace i), f) :=
  if_neg hi

theorem run_union (hi : i < f.size) (hj : j < f.size) :
    f.run (.union i j) = (.joined, f.union i j) :=
  (if_pos hi).trans (if_pos hj)

theorem run_union_of_not_lt_right (hi : i < f.size) (hj : ¬ j < f.size) :
    f.run (.union i j) = (.missing (.ofPlace j), f.compress i) :=
  (if_pos hi).trans (if_neg hj)

theorem run_union_of_not_lt_left (hi : ¬ i < f.size) (j : ℕ) :
    f.run (.union i j) = (.missing (.ofPlace i), f) :=
  if_neg hi

/-- A call fails exactly if it is about an index that does not exist. -/
theorem run_eq_missing_iff (f : Forest) (c : Call) :
    (∃ flaw, (f.run c).1 = .missing flaw) ↔ ∃ i ∈ c.indices, f.size ≤ i := by
  cases c with
  | add => simp [run, Call.indices]
  | find i =>
    by_cases hi : i < f.size
    · simp [run, Call.indices, hi]
    · simp [run, Call.indices, hi, Nat.le_of_not_lt hi]
  | union i j =>
    by_cases hi : i < f.size
    · by_cases hj : j < f.size
      · simp [run, Call.indices, hi, hj]
      · simp [run, Call.indices, hi, hj, Nat.le_of_not_lt hj]
    · simp [run, Call.indices, hi, Nat.le_of_not_lt hi]

namespace Ranked

/-- A call adds an index, joins two sets, or at most shortens paths. -/
theorem run_cases (hf : f.Ranked) (c : Call) :
    (c = .add ∧ f.run c = (.added f.size, f.add)) ∨
      (∃ i j, c = .union i j ∧ i < f.size ∧ j < f.size ∧ f.run c = (.joined, f.union i j)) ∨
      ((f.run c).1 ≠ .joined ∧ Compresses f (f.run c).2) := by
  cases c with
  | add => exact Or.inl ⟨rfl, rfl⟩
  | find i =>
    right
    right
    by_cases hi : i < f.size
    · rw [run_find hi]
      exact ⟨Answer.noConfusion, hf.compresses_compress hi⟩
    · rw [run_find_of_not_lt hi]
      exact ⟨Answer.noConfusion, .refl f⟩
  | union i j =>
    right
    by_cases hi : i < f.size
    · by_cases hj : j < f.size
      · exact Or.inl ⟨i, j, rfl, hi, hj, run_union hi hj⟩
      · rw [run_union_of_not_lt_right hi hj]
        exact Or.inr ⟨Answer.noConfusion, hf.compresses_compress hi⟩
    · rw [run_union_of_not_lt_left hi]
      exact Or.inr ⟨Answer.noConfusion, .refl f⟩

/-- Every call keeps a forest ranked. -/
theorem run (hf : f.Ranked) (c : Call) : (f.run c).2.Ranked := by
  rcases hf.run_cases c with ⟨-, hrun⟩ | ⟨i, j, -, hi, hj, hrun⟩ | ⟨-, hcompresses⟩
  · rw [hrun]
    exact hf.add
  · rw [hrun]
    exact hf.union hi hj
  · exact hcompresses.ranked hf

/-- After a call two indices are in one set exactly if they were before, or if the call is a union
that succeeded and joined their sets. -/
theorem root_run_eq_iff (hf : f.Ranked) (c : Call) (k l : ℕ) :
    (f.run c).2.root k = (f.run c).2.root l ↔
      f.root k = f.root l ∨ ∃ i j, c = .union i j ∧ (f.run c).1 = .joined ∧
        ((f.root k = f.root i ∧ f.root l = f.root j) ∨
          (f.root k = f.root j ∧ f.root l = f.root i)) := by
  rcases hf.run_cases c with ⟨hadd, hrun⟩ | ⟨i, j, hunion, hi, hj, hrun⟩ | ⟨hquiet, hcompresses⟩
  · rw [hrun, hf.root_add, hf.root_add]
    refine ⟨Or.inl, ?_⟩
    rintro (hsame | ⟨i, j, hunion, -⟩)
    · exact hsame
    · exact absurd (hadd.symm.trans hunion) Call.noConfusion
  · rw [hrun, hf.root_union_eq_iff hi hj]
    constructor
    · rintro (hsame | hjoined)
      · exact Or.inl hsame
      · exact Or.inr ⟨i, j, hunion, rfl, hjoined⟩
    · rintro (hsame | ⟨i', j', hunion', -, hjoined⟩)
      · exact Or.inl hsame
      · obtain ⟨rfl, rfl⟩ := Call.union.inj (hunion.symm.trans hunion')
        exact Or.inr hjoined
  · rw [hcompresses.root_eq hf, hcompresses.root_eq hf]
    refine ⟨Or.inl, ?_⟩
    rintro (hsame | ⟨i, j, -, hjoined, -⟩)
    · exact hsame
    · exact absurd hjoined hquiet

/-- A call that looks up a root, or that fails, at most shortens paths. -/
theorem compresses_run (hf : f.Ranked)
    (h : (∃ i, c = .find i) ∨ ∃ flaw, (f.run c).1 = .missing flaw) :
    Compresses f (f.run c).2 := by
  rcases hf.run_cases c with ⟨hadd, hrun⟩ | ⟨i, j, hunion, -, -, hrun⟩ | ⟨-, hcompresses⟩
  · rw [hrun] at h
    rcases h with ⟨i, hfind⟩ | ⟨flaw, hmissing⟩
    · exact absurd (hadd.symm.trans hfind) Call.noConfusion
    · exact absurd hmissing Answer.noConfusion
  · rw [hrun] at h
    rcases h with ⟨i', hfind⟩ | ⟨flaw, hmissing⟩
    · exact absurd (hunion.symm.trans hfind) Call.noConfusion
    · exact absurd hmissing Answer.noConfusion
  · exact hcompresses

/-- To look up two indices one after the other gives the same root exactly if they have it. -/
theorem find_eq_find_iff (hf : f.Ranked) (hi : i < f.size) (hj : j < f.size) :
    ((f.run (.find i)).2.run (.find j)).1 = (f.run (.find i)).1 ↔ f.root i = f.root j := by
  have hcompresses : Compresses f (f.compress i) := hf.compresses_compress hi
  rw [run_find hi, run_find (hj.trans_eq hcompresses.size_eq.symm), hcompresses.root_eq hf,
    Answer.found.injEq]
  exact eq_comm

end Ranked

/-! ### Many calls -/

/-- One call more. -/
theorem runAll_concat (f : Forest) (calls : List Call) (c : Call) :
    runAll f (calls ++ [c]) = ((runAll f calls).run c).2 :=
  List.foldl_concat _ _ _ _

/-- Any calls keep a forest ranked. -/
theorem Ranked.runAll (hf : f.Ranked) (calls : List Call) : (f.runAll calls).Ranked := by
  induction calls using List.reverseRecOn with
  | nil => exact hf
  | append_singleton calls c ih =>
    rw [runAll_concat]
    exact ih.run c

/-- Among the calls there is a union of the two indices that succeeded. -/
def Joined (calls : List Call) (i j : ℕ) : Prop :=
  ∃ before after, calls = before ++ Call.union i j :: after ∧
    ((runAll {} before).run (.union i j)).1 = .joined

/-- A chain of unions that succeeded links the two indices. -/
def Linked (calls : List Call) : ℕ → ℕ → Prop := Relation.EqvGen (Joined calls)

/-- What succeeded was the last call, or one before. -/
theorem joined_concat_iff {calls : List Call} :
    Joined (calls ++ [c]) i j ↔
      Joined calls i j ∨ (c = .union i j ∧ ((runAll {} calls).run c).1 = .joined) := by
  constructor
  · rintro ⟨before, after, hcalls, hjoined⟩
    rcases List.eq_nil_or_concat after with rfl | ⟨after, last, rfl⟩
    · obtain ⟨rfl, hlast⟩ := List.append_inj' hcalls rfl
      obtain rfl := List.singleton_inj.mp hlast
      exact Or.inr ⟨rfl, hjoined⟩
    · rw [List.concat_eq_append, ← List.cons_append, ← List.append_assoc] at hcalls
      exact Or.inl ⟨before, after, (List.append_inj' hcalls rfl).1, hjoined⟩
  · rintro (⟨before, after, rfl, hjoined⟩ | ⟨rfl, hjoined⟩)
    · refine ⟨before, after ++ [c], ?_, hjoined⟩
      rw [List.append_assoc, List.cons_append]
    · exact ⟨calls, [], rfl, hjoined⟩

/-- What was linked stays linked. -/
theorem Linked.concat {calls : List Call} (h : Linked calls k l) (c : Call) :
    Linked (calls ++ [c]) k l :=
  Relation.EqvGen.mono (fun _ _ hjoined ↦ joined_concat_iff.mpr (Or.inl hjoined)) _ _ h

/-- A labelling that agrees on what was joined agrees on what is linked. -/
theorem Linked.label_eq {calls : List Call} {label : ℕ → ℕ}
    (hjoined : ∀ i j, Joined calls i j → label i = label j) (h : Linked calls k l) :
    label k = label l := by
  induction h with
  | rel i j h => exact hjoined i j h
  | refl _ => rfl
  | symm _ _ _ ih => exact ih.symm
  | trans _ _ _ _ _ ihfirst ihlast => exact ihfirst.trans ihlast

/-- Two indices have the same root exactly if a chain of unions that succeeded links them. -/
theorem root_runAll_eq_iff (calls : List Call) (k l : ℕ) :
    (runAll {} calls).root k = (runAll {} calls).root l ↔ Linked calls k l := by
  induction calls using List.reverseRecOn generalizing k l with
  | nil =>
    constructor
    · intro hroot
      rw [show k = l from hroot]
      exact .refl l
    · intro hlinked
      refine hlinked.label_eq fun i j hjoined ↦ ?_
      obtain ⟨before, after, hcalls, -⟩ := hjoined
      simp at hcalls
  | append_singleton calls c ih =>
    have hstep := (ranked_empty.runAll calls).root_run_eq_iff c
    rw [runAll_concat]
    constructor
    · intro hroot
      rcases (hstep k l).mp hroot with hsame | ⟨i, j, hunion, hjoined, hsides⟩
      · exact ((ih k l).mp hsame).concat c
      · have hlink : Linked (calls ++ [c]) i j :=
          .rel _ _ (joined_concat_iff.mpr (Or.inr ⟨hunion, hjoined⟩))
        have hchain : Equivalence (Linked (calls ++ [c])) := Relation.EqvGen.is_equivalence _
        rcases hsides with ⟨hk, hl⟩ | ⟨hk, hl⟩
        · have hfirst := ((ih k i).mp hk).concat c
          have hlast := ((ih j l).mp hl.symm).concat c
          exact hchain.trans hfirst (hchain.trans hlink hlast)
        · have hfirst := ((ih k j).mp hk).concat c
          have hlast := ((ih i l).mp hl.symm).concat c
          exact hchain.trans hfirst (hchain.trans (hchain.symm hlink) hlast)
    · intro hlinked
      refine hlinked.label_eq fun i j hjoined ↦ (hstep i j).mpr ?_
      rcases joined_concat_iff.mp hjoined with hbefore | ⟨hunion, hsucceeds⟩
      · exact Or.inl ((ih i j).mpr (.rel _ _ hbefore))
      · exact Or.inr ⟨i, j, hunion, hsucceeds, Or.inl ⟨rfl, rfl⟩⟩

/-- After any calls, starting with no index, every parent exists and ranks grow along links, so that
both walks of a lookup come to an end. Two indices are found in the same set exactly if a chain of
unions that succeeded links them. A call fails exactly if it is about an index that does not exist.
A lookup, or a call that fails, keeps all ranks and all roots, and at most hangs indices directly
below their roots. -/
theorem partition_runAll (calls : List Call) :
    let f := runAll {} calls
    f.Ranked ∧
      (∀ i < f.size, f.Climbs i (f.root i) ∧ Shortens (f.root i) i f (f.compress i) ∧
        f.run (.find i) = (.found (f.root i), f.compress i)) ∧
      (∀ i < f.size, ∀ j < f.size,
        ((f.run (.find i)).2.run (.find j)).1 = (f.run (.find i)).1 ↔ Linked calls i j) ∧
      (∀ c, (∃ flaw, (f.run c).1 = .missing flaw) ↔ ∃ i ∈ c.indices, f.size ≤ i) ∧
      ∀ c, ((∃ i, c = .find i) ∨ ∃ flaw, (f.run c).1 = .missing flaw) →
        Compresses f (f.run c).2 ∧ ∀ k, (f.run c).2.root k = f.root k := by
  intro f
  have hf : f.Ranked := ranked_empty.runAll calls
  refine ⟨hf, ?_, ?_, run_eq_missing_iff f, ?_⟩
  · intro i hi
    exact ⟨hf.climbs_root i, hf.shortens_compress hi, run_find hi⟩
  · intro i hi j hj
    rw [hf.find_eq_find_iff hi hj]
    exact root_runAll_eq_iff calls i j
  · intro c hc
    have hcompresses := hf.compresses_run hc
    exact ⟨hcompresses, hcompresses.root_eq hf⟩

/-- Three unions among five indices, one of them after a union that fails: the first and the fourth
index are linked, the third is not, and another union that fails keeps its root. -/
theorem partition_runAll_five :
    let calls : List Call :=
      List.replicate 5 .add ++ [.union 0 1, .union 3 4, .union 4 7, .union 1 4]
    let f := runAll {} calls
    f.size = 5 ∧ Linked calls 0 3 ∧ ¬ Linked calls 0 2 ∧
      (f.run (.union 3 7)).1 = .missing .outside ∧
      (f.run (.union 3 7)).2.rank = f.rank ∧ (f.run (.union 3 7)).2.root 3 = 0 := by
  intro calls f
  have hsize : f.size = 5 := by decide +kernel
  have hmissing : (f.run (.union 3 7)).1 = .missing .outside := by decide +kernel
  obtain ⟨-, -, hlinked, -, hkeeps⟩ := partition_runAll calls
  obtain ⟨hcompresses, hroots⟩ := hkeeps (.union 3 7) (Or.inr ⟨.outside, hmissing⟩)
  refine ⟨hsize, ?_, ?_, hmissing, hcompresses.rank_eq, ?_⟩
  · exact (hlinked 0 (by decide +kernel) 3 (by decide +kernel)).mp (by decide +kernel)
  · intro h
    exact absurd ((hlinked 0 (by decide +kernel) 2 (by decide +kernel)).mpr h) (by decide +kernel)
  · exact (hroots 3).trans (by decide +kernel)

end NearClone.Forest
