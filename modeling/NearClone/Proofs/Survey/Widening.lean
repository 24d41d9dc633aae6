import NearClone.Proofs.Survey.Report

/-!
# Reports under a wider scope

A scope that is wider lets more pairs pass, with one exception. The scope of a method goes by the
name of the method alone, so it lets methods of one name in two classes of a file pass, and the
scope of a class turns them away (`Filter.withinScope_iff_of_width_le`). Nothing else that a pair
has to meet depends on the scope. So what a report loses under a wider scope are the clone pairs of
this one kind (`file_of_widens`).
-/

set_option autoImplicit false
set_option relaxedAutoImplicit false

namespace NearClone

/-- How far a scope reaches. -/
def Scope.width : Scope → ℕ
  | method => 0
  | classBody => 1
  | file => 2
  | project => 3

/-- The narrow scope reaches as far as a method, and the wide one as far as a class, and the
fragments are in different classes. -/
def Fragment.SplitBy (f g : Fragment) (narrow wide : Scope) : Prop :=
  narrow = .method ∧ wide = .classBody ∧ f.home ≠ g.home

/-- A pair within a scope that is not the project is in one file. -/
theorem Filter.file_eq_of_withinScope {f g : Fragment} {scope : Scope} (hscope : scope ≠ .project)
    (h : withinScope f g scope = true) : f.file = g.file := by
  cases scope with
  | project => exact absurd rfl hscope
  | file => exact of_decide_eq_true h
  | classBody => exact of_decide_eq_true (Bool.and_eq_true_iff.mp h).1
  | method =>
    exact of_decide_eq_true (Bool.and_eq_true_iff.mp (Bool.and_eq_true_iff.mp h).1).1

/-- A pair within a scope is within each wider one, unless a class splits it. -/
theorem Filter.withinScope_iff_of_width_le {f g : Fragment} {narrow wide : Scope}
    (hwidth : narrow.width ≤ wide.width) (h : withinScope f g narrow = true) :
    withinScope f g wide = true ↔ ¬ f.SplitBy g narrow wide := by
  have hkept (hwithin : withinScope f g wide = true) (hne : narrow = wide ∨ wide ≠ .classBody) :
      withinScope f g wide = true ↔ ¬ f.SplitBy g narrow wide := by
    refine iff_of_true hwithin fun hsplit ↦ ?_
    obtain ⟨hmethod, hclass, -⟩ := hsplit
    rcases hne with heq | hne
    · exact absurd (hmethod.symm.trans (heq.trans hclass)) (by decide)
    · exact hne hclass
  by_cases heq : narrow = wide
  · exact hkept (heq ▸ h) (Or.inl heq)
  have hproject : narrow ≠ .project := by
    rintro rfl
    cases wide <;> first | exact heq rfl | exact absurd hwidth (by decide)
  have hfile : f.file = g.file := file_eq_of_withinScope hproject h
  cases wide with
  | project => exact hkept rfl (Or.inr (by decide))
  | file => exact hkept (decide_eq_true hfile) (Or.inr (by decide))
  | classBody =>
    have hmethod : narrow = .method := by
      cases narrow <;> first | rfl | exact absurd rfl heq | exact absurd hwidth (by decide)
    simp only [withinScope, Fragment.SplitBy, hmethod, hfile, decide_true, Bool.true_and, true_and,
      decide_eq_true_eq, ne_eq, not_not]
  | method => cases narrow <;> first | exact absurd rfl heq | exact absurd hwidth (by decide)

/-- The first configuration has a scope that reaches at least as far as that of the second, and is
the same in everything else. -/
structure Config.Widens {α : Type} (c' c : Config α) : Prop where
  width_le : c.scope.width ≤ c'.scope.width
  rest_eq : c' = { c with scope := c'.scope }

variable {α : Type}

/-- The scope in force reaches at least as far, too. -/
theorem Config.Widens.effectiveScope_width_le {c c' : Config α} (h : c'.Widens c) :
    c.effectiveScope.width ≤ c'.effectiveScope.width := by
  have hcross : c'.crossFile = c.crossFile := by rw [h.rest_eq]
  unfold effectiveScope
  rw [hcross]
  split
  · exact le_rfl
  · exact h.width_le

variable [Scalar α]

/-- Of the filters only that by scope depends on the scope. -/
theorem Filter.admits_of_widens {c c' : Config α} (h : c'.Widens c) (f g : Fragment)
    {filter : Filter} (hfilter : filter ≠ .scope) : admits c' f g filter = admits c f g filter := by
  rw [h.rest_eq]
  cases filter with
  | scope => exact absurd rfl hfilter
  | overlap => rfl
  | size => rfl
  | tokens => rfl

namespace Survey

variable {c c' : Config α} {fs : List Fragment} {p : ClonePair α}

/-- A clone pair stays one under a wider scope, unless a class splits it. -/
theorem compared_iff_of_widens (h : c'.Widens c) (hp : (ofConfig c).Compared fs p) :
    (ofConfig c').Compared fs p ↔
      ¬ p.left.SplitBy p.right c.effectiveScope c'.effectiveScope := by
  have hfilters : ∀ filter ∈ Filter.standard, Filter.admits c p.left p.right filter = true :=
    List.all_eq_true.mp hp.admits
  have hscope : Filter.scope ∈ Filter.standard := by decide
  rw [← Filter.withinScope_iff_of_width_le h.effectiveScope_width_le (hfilters .scope hscope)]
  constructor
  · intro hp'
    exact List.all_eq_true.mp hp'.admits .scope hscope
  · intro hwithin
    have haccepts : c'.accepts p.left p.right p.similarity = true := by
      rw [h.rest_eq]
      exact hp.accepts
    have hcompare : (ofConfig c').compare p.left p.right = .ok p.similarity := by
      rw [h.rest_eq]
      exact hp.compare_eq
    refine ⟨hp.sublist, List.all_eq_true.mpr fun filter hfilter ↦ ?_, hcompare, haccepts⟩
    by_cases hne : filter = .scope
    · rw [hne]
      exact hwithin
    · exact (Filter.admits_of_widens h p.left p.right hne).trans (hfilters filter hfilter)

/-- A wider scope loses only what a class splits. Assumes no time budget. On any file there is a
report under either configuration, and a clone pair of the narrow one is in the wide one unless the
scopes in force are those of a method and of a class, and its fragments are in different classes. -/
theorem file_of_widens (h : c'.Widens c) (hbudget : c.timeBudget = none) (clock clock' : Clock α)
    (source : String) (given : List (Option Fragment)) :
    ∃ narrow wide : Report α,
      (ofConfig c).file clock none source given = .ok narrow ∧
      (ofConfig c').file clock' none source given = .ok wide ∧
      ∀ p ∈ narrow.duplicates, p ∈ wide.duplicates ↔
        ¬ p.left.SplitBy p.right c.effectiveScope c'.effectiveScope := by
  have hbudget' : c'.timeBudget = none := by
    rw [h.rest_eq]
    exact hbudget
  have hcandidates : candidates c' given = candidates c given := by
    rw [h.rest_eq]
    rfl
  obtain ⟨narrow, hnarrow, hmem⟩ :=
    exists_file_of_timeBudget_eq_none (neverFails_ofConfig c) hbudget clock source given
  obtain ⟨wide, hwide, hmem'⟩ :=
    exists_file_of_timeBudget_eq_none (neverFails_ofConfig c') hbudget' clock' source given
  refine ⟨narrow, wide, hnarrow, hwide, fun p hp ↦ ?_⟩
  have hcompared : (ofConfig c).Compared (candidates c given) p := (hmem p).mp hp
  rw [← compared_iff_of_widens h hcompared, ← hcandidates]
  exact hmem' p

/-- Three methods of one name, two of them in one class. Under the scope of a class the pair in one
class is still reported, and that across the classes is not. -/
theorem file_of_widens_classes :
    let c : Config ℚ := { Config.default with minLines := 1, scope := .method }
    let c' : Config ℚ := { c with scope := .classBody }
    let run : String → Int → Fragment := fun owner line ↦
      { statements := [{ shape := "call", kind := "expression" }], method := "run", owner := owner
        location := ⟨"main", ⟨line, line, 1, 1⟩⟩ }
    let given := [some (run "A" 1), some (run "A" 11), some (run "B" 21)]
    let pair : Fragment → Fragment → ClonePair ℚ := fun f g ↦
      ⟨f, g, Similarity.compare c.weights f g⟩
    c'.Widens c ∧ c.timeBudget = none ∧
      ∃ narrow wide : Report ℚ,
        (ofConfig c).file Clock.stopped none "main" given = .ok narrow ∧
        (ofConfig c').file Clock.stopped none "main" given = .ok wide ∧
        pair (run "A" 1) (run "A" 11) ∈ narrow.duplicates ∧
        pair (run "A" 1) (run "A" 11) ∈ wide.duplicates ∧
        pair (run "A" 1) (run "B" 21) ∈ narrow.duplicates ∧
        pair (run "A" 1) (run "B" 21) ∉ wide.duplicates := by
  intro c c' run given pair
  have hwidens : c'.Widens c := ⟨by decide, rfl⟩
  obtain ⟨narrow, wide, hnarrow, hwide, hkept⟩ :=
    file_of_widens hwidens rfl Clock.stopped Clock.stopped "main" given
  have hcandidates : candidates c given = [run "A" 1, run "A" 11, run "B" 21] :=
    Listing.sortBy_of_pairwise (by decide +kernel)
  obtain ⟨report, hreport, hmem⟩ :=
    exists_file_of_timeBudget_eq_none (neverFails_ofConfig c) rfl Clock.stopped "main" given
  obtain rfl := Except.ok.inj (hreport.symm.trans hnarrow)
  have hfirst : [run "A" 1, run "A" 11].Sublist (candidates c given) := by
    rw [hcandidates]
    decide +kernel
  have hacross : [run "A" 1, run "B" 21].Sublist (candidates c given) := by
    rw [hcandidates]
    decide +kernel
  have hnear : pair (run "A" 1) (run "A" 11) ∈ report.duplicates :=
    (hmem _).mpr ⟨hfirst, by decide +kernel, rfl, by decide +kernel⟩
  have hfar : pair (run "A" 1) (run "B" 21) ∈ report.duplicates :=
    (hmem _).mpr ⟨hacross, by decide +kernel, rfl, by decide +kernel⟩
  refine ⟨hwidens, rfl, report, wide, hnarrow, hwide, hnear, (hkept _ hnear).mpr ?_, hfar,
    fun hlost ↦ (hkept _ hfar).mp hlost ?_⟩
  · exact fun hsplit ↦ hsplit.2.2 rfl
  · exact ⟨rfl, rfl, by decide +kernel⟩

/-- Two methods of one name in two classes are a clone pair under the scope of a method. Under that
of a class they are not, although a method does not reach as far as a class. -/
theorem exists_not_mem_duplicates_of_widens :
    let c : Config ℚ := { Config.default with minLines := 1, scope := .method }
    let c' : Config ℚ := { c with scope := .classBody }
    let run : String → Int → Fragment := fun owner line ↦
      { statements := [{ shape := "call", kind := "expression" }], method := "run", owner := owner
        location := ⟨"main", ⟨line, line, 1, 1⟩⟩ }
    let given := [some (run "A" 1), some (run "B" 11)]
    c'.Widens c ∧ c.timeBudget = none ∧
      ∃ narrow wide : Report ℚ,
        (ofConfig c).file Clock.stopped none "main" given = .ok narrow ∧
        (ofConfig c').file Clock.stopped none "main" given = .ok wide ∧
        ∃ p ∈ narrow.duplicates, p ∉ wide.duplicates := by
  intro c c' run given
  have hacross : [run "A" 1, run "B" 11].Sublist (candidates c given) := by
    have hcandidates : candidates c given = [run "A" 1, run "B" 11] :=
      Listing.sortBy_of_pairwise (by decide +kernel)
    rw [hcandidates]
  obtain ⟨narrow, hnarrow, hmem⟩ :=
    exists_file_of_timeBudget_eq_none (neverFails_ofConfig c) rfl Clock.stopped "main" given
  obtain ⟨wide, hwide, hmem'⟩ :=
    exists_file_of_timeBudget_eq_none (neverFails_ofConfig c') rfl Clock.stopped "main" given
  let p : ClonePair ℚ :=
    ⟨run "A" 1, run "B" 11, Similarity.compare c.weights (run "A" 1) (run "B" 11)⟩
  refine ⟨⟨by decide, rfl⟩, rfl, narrow, wide, hnarrow, hwide, p, (hmem p).mpr ?_, fun hlost ↦ ?_⟩
  · exact ⟨hacross, by decide +kernel, rfl, by decide +kernel⟩
  · exact absurd ((hmem' p).mp hlost).admits (by decide +kernel)

end Survey

end NearClone
