import NearClone.Proofs.Listing.Grouped
import NearClone.Proofs.Listing.Shared
import NearClone.Proofs.Source.Order
import NearClone.Proofs.Survey.Report

/-!
# Candidates as a set

The candidates are the usable fragments among those given, one for every location, and they ascend
strictly in the reading order (`pairwise_candidates`). A list of this kind is determined by its
members (`candidates_eq_of_mem_iff`). Where fragments at one location are the same, the candidates
are just the usable fragments (`mem_candidates_iff`), so that neither their order nor their number
nor anything unusable among them has a bearing on the report (`file_eq_of_usable_iff`).

Fewer fragments are candidates in the same order: those that are long enough for a larger least
length (`candidates_of_le_minLines`), and those that are selected by location
(`candidates_of_usable_eq_filter`). Leaving fragments out changes the number of candidates exactly
if it leaves no usable one at some location (`length_candidates_eq_iff`).
-/

set_option autoImplicit false
set_option relaxedAutoImplicit false

namespace NearClone

namespace Survey

variable {α : Type} {c : Config α} {given given' : List (Option Fragment)} {f : Fragment}

/-- The usable fragments among those given. -/
def usable (c : Config α) (given : List (Option Fragment)) : List Fragment :=
  (given.filterMap id).filter (isUsable c)

theorem mem_usable : f ∈ usable c given ↔ some f ∈ given ∧ isUsable c f = true := by
  rw [usable, List.mem_filter, List.mem_filterMap]
  simp only [id_eq, exists_eq_right]

/-- Among more fragments more are usable. -/
theorem usable_subset (h : given ⊆ given') : usable c given ⊆ usable c given' := by
  intro f hf
  obtain ⟨hgiven, husable⟩ := mem_usable.mp hf
  exact mem_usable.mpr ⟨h hgiven, husable⟩

theorem isUsable_iff : isUsable c f = true ↔ f.isMalformed = false ∧ c.minLines ≤ f.length := by
  rw [isUsable, Bool.and_eq_true, Bool.not_eq_true', Config.admitsLength, decide_eq_true_eq]

/-! ### Candidates in the reading order -/

/-- The candidates are usable. -/
theorem mem_usable_of_mem_candidates (h : f ∈ candidates c given) : f ∈ usable c given :=
  Listing.mem_of_mem_firstPer (Listing.mem_sortBy.mp h)

/-- There is a candidate for every location of a usable fragment. -/
theorem length_candidates (c : Config α) (given : List (Option Fragment)) :
    (candidates c given).length =
      (Listing.distinct ((usable c given).map (·.location))).length := by
  rw [Listing.distinct_map, List.length_map]
  exact Listing.length_sortBy _ _

/-- With more fragments there are as many candidates exactly if there are no more locations. -/
theorem length_candidates_eq_iff (h : usable c given ⊆ usable c given') :
    (candidates c given).length = (candidates c given').length ↔
      ∀ f ∈ usable c given', ∃ g ∈ usable c given, g.location = f.location := by
  have hlocations := List.map_subset (·.location) h
  rw [length_candidates, length_candidates, Listing.length_distinct_eq_iff hlocations]
  constructor
  · intro hsub f hf
    exact List.mem_map.mp (hsub (List.mem_map_of_mem hf))
  · intro hcover x hx
    obtain ⟨f, hf, rfl⟩ := List.mem_map.mp hx
    exact List.mem_map.mpr (hcover f hf)

/-- The candidates ascend strictly in the reading order. -/
theorem pairwise_candidates (c : Config α) (given : List (Option Fragment)) :
    (candidates c given).Pairwise fun f g ↦ f.compareReading g = .lt := by
  refine Listing.pairwise_lt_sortBy ((Listing.pairwise_firstPer _ _).imp ?_)
  intro f g hlocation hequal
  exact hlocation (Fragment.compareReading_eq_eq_iff.mp hequal)

/-- Candidates that ascend strictly in the reading order are determined by their members. -/
theorem candidates_eq_of_mem_iff {fs : List Fragment}
    (hfs : fs.Pairwise fun f g ↦ f.compareReading g = .lt)
    (h : ∀ f, f ∈ candidates c given ↔ f ∈ fs) : candidates c given = fs := by
  refine Listing.eq_of_pairwise_of_mem_iff ?_ (pairwise_candidates c given) hfs h
  intro f _ g _ hfg
  exact Std.OrientedCmp.not_lt_of_lt hfg

/-- Where fragments at one location are the same, all usable ones are candidates. -/
theorem mem_candidates_iff (h : Fragment.Unambiguous (usable c given)) :
    f ∈ candidates c given ↔ f ∈ usable c given := by
  refine ⟨mem_usable_of_mem_candidates, fun hf ↦ ?_⟩
  obtain ⟨g, hg, hlocation⟩ := Listing.exists_mem_firstPer (·.location) hf
  obtain rfl := h g (Listing.mem_of_mem_firstPer hg) f hf hlocation
  exact Listing.mem_sortBy.mpr hg

/-- Where fragments at one location are the same, more fragments have the same candidates exactly if
no more of them are usable. -/
theorem candidates_eq_iff_usable_subset (hplaces : Fragment.Unambiguous (usable c given'))
    (h : usable c given ⊆ usable c given') :
    candidates c given = candidates c given' ↔ usable c given' ⊆ usable c given := by
  have hplaces' : Fragment.Unambiguous (usable c given) := fun f hf g hg ↦
    hplaces f (h hf) g (h hg)
  constructor
  · intro hcandidates f hf
    rwa [← mem_candidates_iff hplaces', hcandidates, mem_candidates_iff hplaces]
  · intro hback
    refine candidates_eq_of_mem_iff (pairwise_candidates c given') fun f ↦ ?_
    rw [mem_candidates_iff hplaces', mem_candidates_iff hplaces]
    exact ⟨fun hf ↦ h hf, fun hf ↦ hback hf⟩

/-! ### Fewer candidates -/

/-- The candidates for a larger least length are those that are long enough. -/
theorem candidates_of_le_minLines {c' : Config α} (h : Fragment.Unambiguous (usable c given))
    (hmin : c.minLines ≤ c'.minLines) :
    candidates c' given = (candidates c given).filter c'.admitsLength := by
  have husable (f : Fragment) :
      f ∈ usable c' given ↔ f ∈ usable c given ∧ c'.admitsLength f = true := by
    rw [mem_usable, mem_usable, isUsable_iff, isUsable_iff, Config.admitsLength, decide_eq_true_eq]
    constructor
    · rintro ⟨hgiven, hformed, hlength⟩
      exact ⟨⟨hgiven, hformed, hmin.trans hlength⟩, hlength⟩
    · rintro ⟨⟨hgiven, hformed, -⟩, hlength⟩
      exact ⟨hgiven, hformed, hlength⟩
  have h' : Fragment.Unambiguous (usable c' given) := by
    intro f hf g hg hlocation
    exact h f ((husable f).mp hf).1 g ((husable g).mp hg).1 hlocation
  refine candidates_eq_of_mem_iff ((pairwise_candidates c given).filter _) fun f ↦ ?_
  rw [mem_candidates_iff h', husable, List.mem_filter, mem_candidates_iff h]

/-- If the usable fragments are some of others, selected by location, then so are the candidates. -/
theorem candidates_of_usable_eq_filter {p : Fragment → Bool}
    (hp : ∀ {f g : Fragment}, f.location = g.location → p f = p g)
    (h : usable c given' = (usable c given).filter p) :
    candidates c given' = (candidates c given).filter p := by
  refine candidates_eq_of_mem_iff ((pairwise_candidates c given).filter _) fun f ↦ ?_
  have hmem {given : List (Option Fragment)} :
      f ∈ candidates c given ↔ f ∈ Listing.firstPer (·.location) (usable c given) :=
    Listing.mem_sortBy
  rw [List.mem_filter, hmem, hmem, h, ← Listing.filter_firstPer hp, List.mem_filter]

/-! ### Reports on the same candidates -/

variable [Scalar α] {s : Survey α}

/-- The report on a file depends on its candidates alone. -/
theorem file_congr_candidates (h : candidates s.config given = candidates s.config given')
    (clock : Clock α) (deadline : Option (Quantity α)) (source : String) :
    s.file clock deadline source given = s.file clock deadline source given' := by
  rw [file_eq_report, file_eq_report, h]

/-- Without a time budget the report on a file is the same at any time. -/
theorem file_congr_clock (hbudget : s.config.timeBudget = none)
    (clock clock' : Clock α) (source : String) (given : List (Option Fragment)) :
    s.file clock none source given = s.file clock' none source given := by
  have hwatch (clock : Clock α) : s.watchOf clock none = (⟨clock, none⟩, 0) := by
    simp only [watchOf, Watch.start, hbudget]
  have hcheck (reads : ℕ) :
      (⟨clock, none⟩ : Watch α).check reads = (⟨clock', none⟩ : Watch α).check reads := rfl
  rw [file_eq_report, file_eq_report, hwatch, hwatch, scanRows_congr hcheck]

/-- The report on a file is a matter of its usable candidates as a set. Assumes: no time budget, and
usable fragments that are the same where they are at one location. Whatever else two lists hold,
missing, malformed, short or repeated candidates in any order, if the same fragments are usable in
both, then there is a report on each of them, at whatever times, and it is the same one. -/
theorem file_eq_of_usable_iff (c : Config α) (hbudget : c.timeBudget = none)
    {given given' : List (Option Fragment)} (hplaces : Fragment.Unambiguous (usable c given))
    (hsame : ∀ f, f ∈ usable c given ↔ f ∈ usable c given') (clock clock' : Clock α)
    (source : String) :
    ∃ report, (ofConfig c).file clock none source given = .ok report ∧
      (ofConfig c).file clock' none source given' = .ok report := by
  have hplaces' : Fragment.Unambiguous (usable c given') := by
    intro f hf g hg hlocation
    exact hplaces f ((hsame f).mpr hf) g ((hsame g).mpr hg) hlocation
  have hcandidates : candidates c given = candidates c given' := by
    refine candidates_eq_of_mem_iff (pairwise_candidates c given') fun f ↦ ?_
    rw [mem_candidates_iff hplaces, mem_candidates_iff hplaces', hsame]
  obtain ⟨scan, hreport, -⟩ := exists_file (neverFails_ofConfig c) clock none source given
  refine ⟨_, hreport, ?_⟩
  rw [file_congr_clock hbudget clock' clock, ← hreport]
  exact (file_congr_candidates hcandidates clock none source).symm

/-- Two calls are given the other way round and twice, between nothing, a call that ends before it
starts and one that is too short. There is nothing else to report than on the two of them. -/
theorem file_eq_of_usable_iff_shuffled :
    let c : Config ℚ := { Config.default with minLines := 2 }
    let calls : ℕ → Int → Int → Fragment := fun count first last ↦
      { statements := List.replicate count { shape := "call", kind := "expression" }
        location := ⟨"main", ⟨first, last, 1, 1⟩⟩ }
    let given := [some (calls 2 11 12), none, some (calls 2 9 8), some (calls 2 1 2),
      some (calls 1 5 5), some (calls 2 11 12)]
    let given' := [some (calls 2 1 2), some (calls 2 11 12)]
    Fragment.Unambiguous (usable c given) ∧
      (∀ f, f ∈ usable c given ↔ f ∈ usable c given') ∧
      ∃ report, (ofConfig c).file Clock.stopped none "main" given = .ok report ∧
        (ofConfig c).file (Clock.steady (.int 1)) none "main" given' = .ok report := by
  intro c calls given given'
  have husable : usable c given = [calls 2 11 12, calls 2 1 2, calls 2 11 12] := by decide +kernel
  have husable' : usable c given' = [calls 2 1 2, calls 2 11 12] := by decide +kernel
  have hplaces : Fragment.Unambiguous (usable c given) := by
    rw [husable, Fragment.Unambiguous]
    decide +kernel
  have hsame (f : Fragment) : f ∈ usable c given ↔ f ∈ usable c given' := by
    rw [husable, husable']
    simp only [List.mem_cons, List.not_mem_nil, or_false]
    tauto
  exact ⟨hplaces, hsame,
    file_eq_of_usable_iff c rfl hplaces hsame Clock.stopped (Clock.steady (.int 1)) "main"⟩

end Survey

end NearClone
