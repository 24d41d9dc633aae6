import NearClone.Proofs.Similarity.Verdict

/-!
# Verdicts and names

Names and literals take no part in a verdict along an alignment that is directed from a given list:
it depends on the skeletons of the statements alone (`Verdict.directed_congr`). What texts can do is
to decide which of the two lists comes first, and so the direction of the alignment. Hence the
verdict of a comparison survives a change of texts exactly if the direction does or does not matter;
and it survives every change exactly if the texts are never asked, since the first statements differ
already, or the direction does not matter (`verdict_compare_renamed`). There are fragments whose
verdict a change of texts turns around (`exists_verdict_ne_renamed`).
-/

set_option autoImplicit false
set_option relaxedAutoImplicit false

namespace NearClone

/-! ### Skeletons -/

namespace Statement

/-- A statement without its texts: what remains are the shapes, the kind, and the kinds of the
slots. -/
def skeleton (s : Statement) : Statement :=
  { s with text := "", slots := s.slots.map fun a ↦ { a with text := "" } }

@[simp]
theorem outline_skeleton (s : Statement) : s.skeleton.outline = s.outline := rfl

/-- Lists of equal skeletons have equal outlines. -/
theorem outlines_eq_of_skeletons_eq {ss ss' : List Statement}
    (h : ss.map skeleton = ss'.map skeleton) : ss.map outline = ss'.map outline := by
  have houtline : (outline ∘ skeleton) = outline := funext outline_skeleton
  have hmap := congrArg (List.map outline) h
  rw [List.map_map, List.map_map, houtline] at hmap
  exact hmap

end Statement

/-- Two fragments differ in nothing but texts: statement by statement they have the same shapes, the
same kind and slots of the same kinds. -/
def Fragment.Resembles (f f' : Fragment) : Prop :=
  f.statements.map Statement.skeleton = f'.statements.map Statement.skeleton

namespace AlignedPair

/-- A pair without its texts. -/
def skeleton (p : AlignedPair) : AlignedPair :=
  { p with left := p.left.skeleton, right := p.right.skeleton }

@[simp]
theorem diverts_skeleton (p : AlignedPair) : p.skeleton.diverts = p.diverts := rfl

@[simp]
theorem mismatches_skeleton (p : AlignedPair) : p.skeleton.mismatches = p.mismatches := by
  have hleft : p.skeleton.left.slots.length = p.left.slots.length := List.length_map _
  have hright : p.skeleton.right.slots.length = p.right.slots.length := List.length_map _
  simp only [mismatches, diverts_skeleton, hleft, hright]
  rfl

end AlignedPair

/-- The aligned pairs of skeletons are the skeletons of the aligned pairs. -/
theorem Alignment.pairsOf_skeleton (a : Alignment) (ss ts : List Statement) :
    a.pairsOf (ss.map Statement.skeleton) (ts.map Statement.skeleton) =
      (a.pairsOf ss ts).map AlignedPair.skeleton := by
  rw [pairsOf, pairsOf, List.map_filterMap]
  congr 1
  funext place
  obtain ⟨i, j⟩ := place
  simp only [List.getElem?_map]
  cases ss[i]? <;> cases ts[j]? <;> rfl

namespace Verdict

/-- The verdict along an alignment is that of the skeletons. -/
theorem along_skeleton (ss ts : List Statement) (a : Alignment) :
    along (ss.map Statement.skeleton) (ts.map Statement.skeleton) a = along ss ts a := by
  simp only [along, Differences.along, Differences.ofPairs, Alignment.pairsOf_skeleton,
    List.any_map, Function.comp_def, AlignedPair.diverts_skeleton,
    AlignedPair.mismatches_skeleton]

/-- The verdict from a given list depends on the skeletons alone. -/
theorem directed_congr {ss ss' ts ts' : List Statement}
    (hs : ss.map Statement.skeleton = ss'.map Statement.skeleton)
    (ht : ts.map Statement.skeleton = ts'.map Statement.skeleton) :
    directed ss ts = directed ss' ts' := by
  have halignment := Alignment.directed_congr (Statement.outlines_eq_of_skeletons_eq hs)
    (Statement.outlines_eq_of_skeletons_eq ht)
  rw [directed, directed, halignment, ← along_skeleton ss ts, hs, ht, along_skeleton]

end Verdict

/-! ### When texts decide the order -/

namespace Statement

/-- The part of the order of statements that does not look at texts. -/
def compareBare : Statement → Statement → Ordering :=
  compareLex (compareOn (·.shape)) <| compareLex (compareOn (·.fineShape)) (compareOn (·.kind))

/-- Statements are compared by their shapes and kinds, then by their texts, then by their slots. -/
theorem compare_eq_then (s t : Statement) :
    Statement.compare s t =
      (compareBare s t).then
        ((Ord.compare s.text t.text).then (List.compareLex Slot.compare s.slots t.slots)) := by
  simp only [Statement.compare, compareBare, compareLex, compareOn, Ordering.then_assoc]

/-- Without a look at texts, statements are equal whose outlines and kinds are. -/
theorem compareBare_eq_eq {s t : Statement} :
    compareBare s t = .eq ↔ s.outline = t.outline ∧ s.kind = t.kind := by
  simp only [compareBare, compareLex_eq_eq, compareOn, Std.LawfulEqOrd.compare_eq_iff_eq, outline,
    Prod.mk.injEq, and_assoc]

/-- The order without a look at texts is that of the skeletons. -/
theorem compareBare_congr {s s' t t' : Statement} (hs : s.skeleton = s'.skeleton)
    (ht : t.skeleton = t'.skeleton) : compareBare s t = compareBare s' t' := by
  change compareBare s.skeleton t.skeleton = compareBare s'.skeleton t'.skeleton
  rw [hs, ht]

/-- The first statements agree in all that is compared before their texts. -/
def HeadsAlike : List Statement → List Statement → Prop
  | s :: _, t :: _ => s.outline = t.outline ∧ s.kind = t.kind
  | _, _ => False

/-- What is decided first stays decided. -/
theorem then_eq_of_ne_eq {a b : Ordering} (h : a ≠ .eq) : a.then b = a := by
  cases a with
  | lt => rfl
  | eq => exact absurd rfl h
  | gt => rfl

/-- Where the first statements differ in more than their texts, they decide the order of two
lists. -/
theorem compareLists_cons_of_ne_eq {s t : Statement} {ss ts : List Statement}
    (h : compareBare t s ≠ .eq) : compareLists (t :: ts) (s :: ss) = compareBare t s := by
  rw [compareLists, List.compareLex_cons_cons, compare_eq_then, Ordering.then_assoc,
    then_eq_of_ne_eq h]

/-- Where the first statements are not alike, or one is missing, no text has a say in the order of
two lists. -/
theorem compareLists_congr_of_not_headsAlike {ss ss' ts ts' : List Statement}
    (hs : ss.map skeleton = ss'.map skeleton) (ht : ts.map skeleton = ts'.map skeleton)
    (h : ¬ HeadsAlike ss ts) : compareLists ts' ss' = compareLists ts ss := by
  cases ss with
  | nil =>
    obtain rfl : ss' = [] := List.map_eq_nil_iff.mp hs.symm
    cases ts with
    | nil =>
      obtain rfl : ts' = [] := List.map_eq_nil_iff.mp ht.symm
      rfl
    | cons t ts =>
      cases ts' with
      | nil => simp at ht
      | cons t' ts' => rfl
  | cons s ss =>
    cases ss' with
    | nil => simp at hs
    | cons s' ss' =>
      cases ts with
      | nil =>
        obtain rfl : ts' = [] := List.map_eq_nil_iff.mp ht.symm
        rfl
      | cons t ts =>
        cases ts' with
        | nil => simp at ht
        | cons t' ts' =>
          simp only [List.map_cons, List.cons.injEq] at hs ht
          have hne : compareBare t s ≠ .eq := by
            intro hbare
            obtain ⟨houtline, hkind⟩ := compareBare_eq_eq.mp hbare
            exact h ⟨houtline.symm, hkind.symm⟩
          have hbare : compareBare t' s' = compareBare t s := (compareBare_congr ht.1 hs.1).symm
          rw [compareLists_cons_of_ne_eq hne, compareLists_cons_of_ne_eq (hbare ▸ hne), hbare]

/-- The list with another text of its first statement. -/
def retext (text : String) : List Statement → List Statement
  | [] => []
  | s :: ss => { s with text } :: ss

/-- Another text leaves the skeletons as they are. -/
@[simp]
theorem map_skeleton_retext (text : String) (ss : List Statement) :
    (retext text ss).map skeleton = ss.map skeleton := by
  cases ss <;> rfl

/-- Where the first statements are alike, their texts decide the order of two lists. -/
theorem compareLists_retext {ss ts : List Statement} (h : HeadsAlike ss ts) {a b : String}
    (hab : Ord.compare a b ≠ .eq) :
    compareLists (retext a ts) (retext b ss) = Ord.compare a b := by
  cases ss with
  | nil => exact h.elim
  | cons s ss =>
    cases ts with
    | nil => exact h.elim
    | cons t ts =>
      have hbare : compareBare { t with text := a } { s with text := b } = .eq :=
        compareBare_eq_eq.mpr ⟨h.1.symm, h.2.symm⟩
      rw [compareLists, retext, retext, List.compareLex_cons_cons, compare_eq_then, hbare,
        Ordering.then_assoc, Ordering.then_assoc]
      exact then_eq_of_ne_eq hab

end Statement

/-! ### Verdicts of renamed fragments -/

namespace Similarity

variable {α : Type} [Scalar α] (w : Weights α) {f f' g g' : Fragment}

/-- After a change of texts, a verdict is the same exactly if the lists are in the same order, or if
the direction of the alignment does not matter. -/
theorem verdict_compare_eq_iff (hf : f.Resembles f') (hg : g.Resembles g') :
    (compare w f' g').verdict = (compare w f g).verdict ↔
      (Statement.compareLists g'.statements f'.statements).isLT =
          (Statement.compareLists g.statements f.statements).isLT ∨
        Verdict.directed f.statements g.statements =
          Verdict.directed g.statements f.statements := by
  have hfg : Verdict.directed f'.statements g'.statements =
      Verdict.directed f.statements g.statements := Verdict.directed_congr hf.symm hg.symm
  have hgf : Verdict.directed g'.statements f'.statements =
      Verdict.directed g.statements f.statements := Verdict.directed_congr hg.symm hf.symm
  rw [verdict_compare_eq_ite, verdict_compare_eq_ite, hfg, hgf]
  cases (Statement.compareLists g'.statements f'.statements).isLT <;>
    cases (Statement.compareLists g.statements f.statements).isLT
  · simp
  · simp
  · simp [eq_comm]
  · simp

/-- Where the first statements are alike, their texts can put the lists in either order. -/
theorem exists_renamed_isLT (h : Statement.HeadsAlike f.statements g.statements) (first : Bool) :
    ∃ f' g' : Fragment, f.Resembles f' ∧ g.Resembles g' ∧
      (Statement.compareLists g'.statements f'.statements).isLT = first := by
  have hrename (a b : String) (hab : Ord.compare a b ≠ .eq) :
      ∃ f' g' : Fragment, f.Resembles f' ∧ g.Resembles g' ∧
        (Statement.compareLists g'.statements f'.statements).isLT = (Ord.compare a b).isLT := by
    refine ⟨{ f with statements := Statement.retext b f.statements },
      { g with statements := Statement.retext a g.statements }, ?_, ?_, ?_⟩
    · exact (Statement.map_skeleton_retext b f.statements).symm
    · exact (Statement.map_skeleton_retext a g.statements).symm
    · rw [Statement.compareLists_retext h hab]
  cases first with
  | true => exact hrename "a" "b" (by decide)
  | false => exact hrename "b" "a" (by decide)

/-- A change of texts keeps the verdict exactly if the lists stay in the same order or the direction
of the alignment does not matter. No change of texts can alter the verdict exactly if the first
statements are told apart by shape or kind, or one is missing, or the direction does not matter. -/
theorem verdict_compare_renamed (f g : Fragment) :
    (∀ f' g' : Fragment, f.Resembles f' → g.Resembles g' →
      ((compare w f' g').verdict = (compare w f g).verdict ↔
        (Statement.compareLists g'.statements f'.statements).isLT =
            (Statement.compareLists g.statements f.statements).isLT ∨
          Verdict.directed f.statements g.statements =
            Verdict.directed g.statements f.statements)) ∧
    ((∀ f' g' : Fragment, f.Resembles f' → g.Resembles g' →
        (compare w f' g').verdict = (compare w f g).verdict) ↔
      ¬ Statement.HeadsAlike f.statements g.statements ∨
        Verdict.directed f.statements g.statements =
          Verdict.directed g.statements f.statements) := by
  refine ⟨fun f' g' hf hg ↦ verdict_compare_eq_iff w hf hg, ?_, ?_⟩
  · intro hstable
    by_cases hheads : Statement.HeadsAlike f.statements g.statements
    · obtain ⟨f', g', hf, hg, hturned⟩ := exists_renamed_isLT hheads
        (!(Statement.compareLists g.statements f.statements).isLT)
      rcases (verdict_compare_eq_iff w hf hg).mp (hstable f' g' hf hg) with hsame | hdirected
      · rw [hturned] at hsame
        exact absurd hsame (Bool.not_ne_self _)
      · exact Or.inr hdirected
    · exact Or.inl hheads
  · intro h f' g' hf hg
    rw [verdict_compare_eq_iff w hf hg]
    rcases h with hheads | hdirected
    · rw [Statement.compareLists_congr_of_not_headsAlike hf hg hheads]
      exact Or.inl rfl
    · exact Or.inr hdirected

/-- A loop before a call and two calls are told apart by their first statements, so that other texts
leave the verdict as it is. -/
theorem verdict_compare_renamed_loop :
    let loop (first second : String) : Fragment :=
      { statements := [{ shape := "loop", kind := "while", text := first },
          { shape := "call", kind := "expression", text := second }]
        location := ⟨"main", ⟨1, 2, 1, 1⟩⟩ }
    let calls (first second : String) : Fragment :=
      { statements := [{ shape := "call", kind := "expression", text := first },
          { shape := "call", kind := "expression", text := second }]
        location := ⟨"main", ⟨11, 12, 1, 1⟩⟩ }
    (loop "i" "f").Resembles (loop "z" "a") ∧ (calls "f" "g").Resembles (calls "a" "z") ∧
      ¬ Statement.HeadsAlike (loop "i" "f").statements (calls "f" "g").statements ∧
      (compare Weights.balanced (loop "z" "a") (calls "a" "z") : Similarity Rat).verdict =
        (compare Weights.balanced (loop "i" "f") (calls "f" "g") : Similarity Rat).verdict := by
  intro loop calls
  have hloop : (loop "i" "f").Resembles (loop "z" "a") := rfl
  have hcalls : (calls "f" "g").Resembles (calls "a" "z") := rfl
  have hheads : ¬ Statement.HeadsAlike (loop "i" "f").statements (calls "f" "g").statements :=
    fun h ↦ absurd h.2 (by decide)
  exact ⟨hloop, hcalls, hheads, (verdict_compare_renamed Weights.balanced _ _).2.mpr
    (Or.inl hheads) _ _ hloop hcalls⟩

/-- A call before a loop and two calls: the texts of the first calls decide whether the loop is
paired with the second call, where control flows differently, or is left without a partner. -/
theorem exists_verdict_ne_renamed :
    let loop (text : String) : Fragment :=
      { statements := [{ shape := "call", kind := "expression", text },
          { shape := "loop", kind := "while" }]
        location := ⟨"main", ⟨1, 2, 1, 1⟩⟩ }
    let calls (text : String) : Fragment :=
      { statements := [{ shape := "call", kind := "expression", text },
          { shape := "call", kind := "expression" }]
        location := ⟨"main", ⟨11, 12, 1, 1⟩⟩ }
    (loop "b").Resembles (loop "a") ∧ (calls "a").Resembles (calls "b") ∧
      (compare Weights.balanced (loop "b") (calls "a") : Similarity Rat).verdict =
        { diverts := true, canRefactor := false, mismatch := false } ∧
      (compare Weights.balanced (loop "a") (calls "b") : Similarity Rat).verdict =
        { diverts := false, canRefactor := true, mismatch := true } := by
  intro loop calls
  refine ⟨rfl, rfl, ?_, ?_⟩
  -- Sorting the aligned pairs does not evaluate, but their woven form does.
  all_goals
    rw [verdict_compare_eq_ite]
    simp only [Verdict.directed, Verdict.along, Differences.along, Alignment.pairsOf,
      Alignment.aligned_directed]
    decide +kernel

end Similarity

end NearClone
