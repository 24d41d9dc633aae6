import NearClone.Proofs.Survey.Restriction
import Mathlib.Order.Monotone.Defs

/-!
# Surveys under a deadline

A scan looks at the clock before every pair, row by row, and a row that ends late does not end the
rows behind it. But where the clock never falls back, a deadline that has passed stays passed
(`Watch.isLate_of_check`), so those rows end before their first pair. What is compared is therefore
what comparing the pairs in time compares, the first so many of all pairs (`scanRow_eq_compareAll`,
`scanRows_eq_compareAll`). The report follows from these pairs alone (`file_truncates`).
-/

set_option autoImplicit false
set_option relaxedAutoImplicit false

namespace NearClone

/-! ### Pairs row by row -/

/-- Every element with each of those behind it, row by row. -/
def Listing.rowPairs {β : Type} : List β → List (β × β)
  | [] => []
  | x :: rest => rest.map (x, ·) ++ rowPairs rest

variable {α : Type} [Scalar α]

/-! ### Clocks that never fall back -/

/-- The readings never fall: whatever one of them exceeds, the later ones exceed too. -/
def Clock.Ascends (clock : Clock α) : Prop :=
  ∀ (bound : Quantity α) (m n : ℕ), m ≤ n → bound.isLess (clock m) = true →
    bound.isLess (clock n) = true

/-- Over exact numbers the readings never fall exactly if they are monotone. -/
theorem Clock.ascends_iff_monotone (clock : Clock ℚ) :
    clock.Ascends ↔ Monotone fun n ↦ (clock n).toReal := by
  simp only [Clock.Ascends, Quantity.isLess_rat, decide_eq_true_eq]
  constructor
  · intro h m n hmn
    by_contra hfalls
    exact lt_irrefl _ (h (clock n) m n hmn (not_le.mp hfalls))
  · intro h bound m n hmn hbound
    exact hbound.trans_le (h hmn)

/-- A steady clock that does not run backwards never falls back. -/
theorem Clock.ascends_steady {step : Quantity ℚ} (h : 0 ≤ step.toReal) :
    (Clock.steady step).Ascends := by
  have hadd (a b : Quantity ℚ) : (a.add b).toReal = a.toReal + b.toReal := by
    cases a <;> cases b
    · exact Int.cast_add _ _
    all_goals rfl
  rw [ascends_iff_monotone]
  refine monotone_nat_of_le_succ fun n ↦ ?_
  change _ ≤ ((Clock.steady step n).add step).toReal
  rw [hadd]
  exact le_add_of_nonneg_right h

namespace Watch

variable {w : Watch α} {reads m n : ℕ}

/-- How many of so many looks at the clock are in time before the first that is not. -/
def inTime (w : Watch α) (reads : ℕ) : ℕ → ℕ
  | 0 => 0
  | n + 1 => if (w.check reads).1 then 0 else inTime w (w.check reads).2 n + 1

/-- The count of clock readings after so many looks at the clock, or after the first that is not in
time. -/
def countAfter (w : Watch α) (reads : ℕ) : ℕ → ℕ
  | 0 => reads
  | n + 1 => if (w.check reads).1 then (w.check reads).2 else countAfter w (w.check reads).2 n

/-- From this count of clock readings on the deadline has passed. -/
def IsLate (w : Watch α) (reads : ℕ) : Prop := ∀ n, reads ≤ n → (w.check n).1 = true

theorem inTime_le (w : Watch α) (reads n : ℕ) : w.inTime reads n ≤ n := by
  induction n generalizing reads with
  | zero => exact Nat.le_refl 0
  | succ n ih =>
    rw [inTime]
    split
    · exact Nat.zero_le _
    · exact Nat.succ_le_succ (ih _)

/-- Looks at the clock in two parts: if the first part is in time throughout, the second counts. -/
theorem inTime_add (w : Watch α) (reads m n : ℕ) :
    w.inTime reads (m + n) =
      if w.inTime reads m < m then w.inTime reads m
      else m + w.inTime (w.countAfter reads m) n := by
  induction m generalizing reads with
  | zero => simp only [inTime, countAfter, Nat.zero_add, Nat.lt_irrefl, if_false]
  | succ m ih =>
    rw [Nat.succ_add, inTime, inTime, countAfter, ih]
    by_cases hlate : (w.check reads).1 = true
    · simp only [hlate, if_true, Nat.succ_pos]
    · simp only [hlate, Bool.false_eq_true, if_false, Nat.add_lt_add_iff_right]
      split
      · rfl
      · rw [Nat.succ_add]

/-- Without a deadline every look at the clock is in time. -/
theorem inTime_of_deadline_eq_none (h : w.deadline = none) (reads n : ℕ) :
    w.inTime reads n = n := by
  induction n generalizing reads with
  | zero => rfl
  | succ n ih => rw [inTime, check_of_deadline_eq_none h, if_neg Bool.false_ne_true, ih]

/-- Once late no look at the clock is in time. -/
theorem IsLate.inTime_eq_zero (h : w.IsLate reads) (n : ℕ) : w.inTime reads n = 0 := by
  cases n with
  | zero => rfl
  | succ n => rw [inTime, if_pos (h reads le_rfl)]

theorem IsLate.mono (h : w.IsLate m) (hmn : m ≤ n) : w.IsLate n :=
  fun k hk ↦ h k (hmn.trans hk)

/-- A look at the clock does not lower the count. -/
theorem le_check (w : Watch α) (reads : ℕ) : reads ≤ (w.check reads).2 := by
  rw [check]
  split
  · exact Nat.le_refl _
  · exact Nat.le_succ _

/-- Where the clock never falls back, a deadline that has passed stays passed. -/
theorem isLate_of_check (hclock : w.clock.Ascends) (h : (w.check reads).1 = true) :
    w.IsLate reads := by
  intro n hn
  unfold check at h ⊢
  cases hdeadline : w.deadline with
  | none => rw [hdeadline] at h; exact Bool.noConfusion h
  | some deadline =>
    rw [hdeadline] at h
    exact hclock deadline reads n hn h

/-- Where the clock never falls back, it is late after looks that are not all in time. -/
theorem isLate_countAfter (hclock : w.clock.Ascends) (h : w.inTime reads n < n) :
    w.IsLate (w.countAfter reads n) := by
  induction n generalizing reads with
  | zero => exact absurd h (Nat.lt_irrefl 0)
  | succ n ih =>
    rw [inTime] at h
    rw [countAfter]
    by_cases hlate : (w.check reads).1 = true
    · rw [if_pos hlate]
      exact (isLate_of_check hclock hlate).mono (w.le_check reads)
    · rw [if_neg hlate] at h ⊢
      exact ih (Nat.lt_of_succ_lt_succ h)

end Watch

namespace Survey

/-! ### Comparisons one after the other -/

/-- The comparison of a pair. -/
def comparePair (s : Survey α) (p : Fragment × Fragment) : Except String (ClonePair α) :=
  (s.compare p.1 p.2).map fun similarity ↦ ⟨p.1, p.2, similarity⟩

/-- Compares those of the pairs that the filters admit, one after the other. The first failure ends
it. -/
def compareAll (s : Survey α) (pairs : List (Fragment × Fragment)) :
    Except String (List (ClonePair α)) :=
  (pairs.filter fun p ↦ Filter.admitsAll s.config s.filters p.1 p.2).mapM s.comparePair

/-- The scan that has made these comparisons, and was cut short or not. -/
def scanOf (s : Survey α) (cut : Bool) (compared : List (ClonePair α)) : Scan α where
  accepted := compared.filter fun p ↦ s.config.accepts p.left p.right p.similarity
  compared := compared.length
  truncated := cut

variable {s : Survey α} {w : Watch α} {f g : Fragment} {gs fs : List Fragment} {reads : ℕ}
  {pairs : List (Fragment × Fragment)}

theorem compareAll_nil (s : Survey α) : s.compareAll [] = .ok [] := rfl

/-- A pair that the filters turn away is not compared. -/
theorem compareAll_cons_of_not_admits (h : ¬ Filter.admitsAll s.config s.filters f g = true) :
    s.compareAll ((f, g) :: pairs) = s.compareAll pairs := by
  rw [compareAll, List.filter_cons, if_neg h, compareAll]

/-- A pair that the filters admit is compared before the others. -/
theorem compareAll_cons_of_admits (h : Filter.admitsAll s.config s.filters f g = true) :
    s.compareAll ((f, g) :: pairs) =
      match s.compare f g with
      | .error message => .error message
      | .ok similarity => (s.compareAll pairs).map (⟨f, g, similarity⟩ :: ·) := by
  rw [compareAll, List.filter_cons, if_pos h, List.mapM_cons, compareAll, comparePair]
  cases s.compare f g with
  | error message => rfl
  | ok similarity =>
    generalize List.mapM s.comparePair _ = rest
    cases rest <;> rfl

/-- Two lists of pairs are compared one after the other. -/
theorem compareAll_append (s : Survey α) (pairs others : List (Fragment × Fragment)) :
    s.compareAll (pairs ++ others) =
      (s.compareAll pairs).bind fun compared ↦ (s.compareAll others).map (compared ++ ·) := by
  rw [compareAll, List.filter_append, List.mapM_append, compareAll, compareAll]
  generalize List.mapM s.comparePair _ = first
  generalize List.mapM s.comparePair _ = second
  cases first <;> cases second <;> rfl

/-- A judged pair is one comparison. -/
theorem judge_eq_scanOf (s : Survey α) (f g : Fragment) (similarity : Similarity α) :
    s.judge f g similarity = s.scanOf false [⟨f, g, similarity⟩] := by
  rw [judge, scanOf, List.filter_cons, List.filter_nil, List.length_singleton]

/-- Scans one after the other have made their comparisons one after the other. -/
theorem append_scanOf (s : Survey α) (cut cut' : Bool) (compared others : List (ClonePair α)) :
    (s.scanOf cut compared).append (s.scanOf cut' others) =
      s.scanOf (cut || cut') (compared ++ others) := by
  rw [scanOf, scanOf, scanOf, Scan.append, List.filter_append, List.length_append]

/-! ### Scans as comparisons -/

/-- A row compares its pairs in time. -/
theorem scanRow_eq_compareAll (s : Survey α) (w : Watch α) (f : Fragment) (gs : List Fragment)
    (reads : ℕ) :
    (s.scanRow w f gs reads).1 =
      (s.compareAll ((gs.take (w.inTime reads gs.length)).map (f, ·))).map
        (s.scanOf (w.inTime reads gs.length < gs.length)) := by
  induction gs generalizing reads with
  | nil => rfl
  | cons g rest ih =>
    rw [scanRow_cons, List.length_cons, Watch.inTime]
    by_cases hlate : (w.check reads).1 = true
    · simp only [hlate, if_true, List.take_zero, List.map_nil, Nat.succ_pos, decide_true]
      rfl
    simp only [hlate, Bool.false_eq_true, if_false, List.take_succ_cons, List.map_cons,
      Nat.add_lt_add_iff_right]
    by_cases hadmits : Filter.admitsAll s.config s.filters f g = true
    · rw [if_pos hadmits, compareAll_cons_of_admits hadmits]
      cases s.compare f g with
      | error message => rfl
      | ok similarity =>
        change (s.scanRow w f rest _).1.map _ = _
        rw [ih, judge_eq_scanOf]
        cases s.compareAll _ with
        | error message => rfl
        | ok compared => exact congrArg Except.ok (s.append_scanOf false _ [_] compared)
    · rw [if_neg hadmits, compareAll_cons_of_not_admits hadmits, ih]

/-- A row that was found has looked at the clock once for each pair, up to the first look that was
not in time. -/
theorem scanRow_snd {row : Scan α} (hrow : (s.scanRow w f gs reads).1 = .ok row) :
    (s.scanRow w f gs reads).2 = w.countAfter reads gs.length := by
  induction gs generalizing reads row with
  | nil => rfl
  | cons g rest ih =>
    rw [scanRow_cons] at hrow ⊢
    rw [List.length_cons, Watch.countAfter]
    by_cases hlate : (w.check reads).1 = true
    · rw [if_pos hlate, if_pos hlate]
    rw [if_neg hlate] at hrow ⊢
    rw [if_neg hlate]
    by_cases hadmits : Filter.admitsAll s.config s.filters f g = true
    · rw [if_pos hadmits] at hrow ⊢
      cases hcompare : s.compare f g with
      | error message =>
        rw [hcompare] at hrow
        exact nomatch hrow
      | ok similarity =>
        rw [hcompare] at hrow
        obtain ⟨tail, htail, -⟩ := map_eq_ok_iff.mp hrow
        exact ih htail
    · rw [if_neg hadmits] at hrow ⊢
      exact ih hrow

/-- The first row, and then the rows behind it from the count at which it leaves the clock. -/
theorem scanRows_cons_eq_bind (s : Survey α) (w : Watch α) (f : Fragment) (rest : List Fragment)
    (reads : ℕ) :
    (s.scanRows w (f :: rest) reads).1 =
      (s.scanRow w f rest reads).1.bind fun row ↦
        (s.scanRows w rest (w.countAfter reads rest.length)).1.map row.append := by
  rw [scanRows_cons]
  cases hscan : s.scanRow w f rest reads with
  | mk outcome behind =>
    cases outcome with
    | error message => rfl
    | ok row =>
      have hbehind := scanRow_snd (congrArg Prod.fst hscan)
      rw [hscan] at hbehind
      rw [← hbehind]
      rfl

/-- Where the clock never falls back, a scan compares its pairs in time, taken row by row. -/
theorem scanRows_eq_compareAll (s : Survey α) (hclock : w.clock.Ascends) (fs : List Fragment)
    (reads : ℕ) :
    let pairs := Listing.rowPairs fs
    (s.scanRows w fs reads).1 =
      (s.compareAll (pairs.take (w.inTime reads pairs.length))).map
        (s.scanOf (w.inTime reads pairs.length < pairs.length)) := by
  induction fs generalizing reads with
  | nil => rfl
  | cons f rest ih =>
    intro pairs
    have hlength : (rest.map (f, ·)).length = rest.length := List.length_map _
    have hpairs : pairs = rest.map (f, ·) ++ Listing.rowPairs rest := rfl
    rw [scanRows_cons_eq_bind, scanRow_eq_compareAll, ih, hpairs, List.length_append, hlength,
      Watch.inTime_add, List.take_append, hlength, List.map_take]
    by_cases hcut : w.inTime reads rest.length < rest.length
    · -- The row was cut short, and no pair behind it is in time.
      rw [if_pos hcut, (Watch.isLate_countAfter hclock hcut).inTime_eq_zero,
        Nat.sub_eq_zero_of_le hcut.le, List.take_zero, List.append_nil, compareAll_nil]
      cases s.compareAll _ with
      | error message => rfl
      | ok compared =>
        refine congrArg Except.ok ((s.append_scanOf _ _ compared []).trans ?_)
        rw [List.append_nil, decide_eq_true hcut, decide_eq_true (Nat.lt_add_right _ hcut),
          Bool.true_or]
    · -- The row is whole, and the rows behind it are compared as far as they are in time.
      have hall : w.inTime reads rest.length = rest.length :=
        Nat.le_antisymm (w.inTime_le reads rest.length) (not_lt.mp hcut)
      rw [if_neg hcut, hall, List.take_of_length_le (hlength.trans_le (Nat.le_add_right _ _)),
        List.take_of_length_le hlength.le, Nat.add_sub_cancel_left, compareAll_append]
      cases s.compareAll (rest.map (f, ·)) with
      | error message => rfl
      | ok compared =>
        cases s.compareAll _ with
        | error message => rfl
        | ok others =>
          refine congrArg Except.ok ((s.append_scanOf _ _ compared others).trans ?_)
          simp only [Nat.lt_irrefl, decide_false, Bool.false_or, Nat.add_lt_add_iff_left]

/-- Without a deadline a scan compares all pairs. -/
theorem scanRows_eq_compareAll_of_deadline_eq_none (h : w.deadline = none) (fs : List Fragment)
    (reads : ℕ) :
    (s.scanRows w fs reads).1 = (s.compareAll (Listing.rowPairs fs)).map (s.scanOf false) := by
  have hstopped : (⟨Clock.stopped, none⟩ : Watch α).clock.Ascends := fun _ _ _ _ hbound ↦ hbound
  have hcheck (reads : ℕ) : w.check reads = (⟨Clock.stopped, none⟩ : Watch α).check reads :=
    Watch.check_of_deadline_eq_none h reads
  rw [scanRows_congr hcheck, scanRows_eq_compareAll s hstopped]
  simp only [Watch.inTime_of_deadline_eq_none, List.take_length, Nat.lt_irrefl, decide_false]

/-! ### Reports as comparisons -/

/-- The report that rests on these comparisons, and was cut short or not. -/
def reportOn (s : Survey α) (source : String) (given : List (Option Fragment)) (cut : Bool)
    (compared : List (ClonePair α)) : Report α :=
  reportOf s.config source (candidates s.config given).length (s.scanOf cut compared)

theorem clock_watchOf (s : Survey α) (clock : Clock α) (deadline : Option (Quantity α)) :
    (s.watchOf clock deadline).1.clock = clock := by
  cases deadline with
  | some _ => rfl
  | none =>
    unfold watchOf Watch.start
    cases s.config.timeBudget <;> rfl

/-- Where the clock never falls back, the report on a file rests on the pairs of candidates in
time. -/
theorem file_eq_compareAll (s : Survey α) {clock : Clock α} (hclock : clock.Ascends)
    (deadline : Option (Quantity α)) (source : String) (given : List (Option Fragment)) :
    let pairs := Listing.rowPairs (candidates s.config given)
    let watch := s.watchOf clock deadline
    s.file clock deadline source given =
      (s.compareAll (pairs.take (watch.1.inTime watch.2 pairs.length))).map
        (s.reportOn source given (watch.1.inTime watch.2 pairs.length < pairs.length)) := by
  intro pairs watch
  have hwatch : watch.1.clock.Ascends := by
    rw [clock_watchOf]
    exact hclock
  rw [file_eq_report, scanRows_eq_compareAll s hwatch]
  cases s.compareAll _ <;> rfl

/-- Without a time budget the report on a file rests on all pairs of candidates. -/
theorem file_eq_compareAll_of_timeBudget_eq_none (hbudget : s.config.timeBudget = none)
    (clock : Clock α) (source : String) (given : List (Option Fragment)) :
    s.file clock none source given =
      (s.compareAll (Listing.rowPairs (candidates s.config given))).map
        (s.reportOn source given false) := by
  rw [file_eq_report,
    scanRows_eq_compareAll_of_deadline_eq_none (deadline_watchOf hbudget clock)]
  cases s.compareAll _ <;> rfl

/-- The comparisons that a configuration asks for do not fail. -/
theorem compareAll_ofConfig (c : Config α) (pairs : List (Fragment × Fragment)) :
    (ofConfig c).compareAll pairs =
      .ok ((pairs.filter fun p ↦ Filter.admitsAll c Filter.standard p.1 p.2).map fun p ↦
        ⟨p.1, p.2, Similarity.compare c.weights p.1 p.2⟩) :=
  List.mapM_pure

/-- A deadline cuts the comparisons short, and nothing else. Assumes: numbers that are ordered, and
a clock that never falls back. There is a count, at most that of all pairs of candidates, taken row
by row. Whatever the filters and comparisons are, and even if these fail, the outcome is that of
comparing just so many of the pairs, the first ones, and it is marked as cut short exactly if that
is not all of them. So there is a report. If it is not marked, it is the one without a time budget,
and if it is, it still lists some of the clone pairs of that one in the same order. -/
theorem file_truncates (hα : Scalar.Ordered α) (c : Config α) {clock : Clock α}
    (hclock : clock.Ascends) (deadline : Option (Quantity α)) (given : List (Option Fragment)) :
    let pairs := Listing.rowPairs (candidates c given)
    ∃ k ≤ pairs.length,
      (∀ (s : Survey α) (source : String), s.config = c →
        s.file clock deadline source given =
          (s.compareAll (pairs.take k)).map (s.reportOn source given (k < pairs.length))) ∧
      ∀ (source : String) (clock' : Clock α), ∃ report whole : Report α,
        (ofConfig c).file clock deadline source given = .ok report ∧
        (ofConfig { c with timeBudget := none }).file clock' none source given = .ok whole ∧
        (report.truncated = true ↔ k < pairs.length) ∧
        (report.truncated = false → report = { whole with config := c }) ∧
        report.duplicates.Sublist whole.duplicates := by
  intro pairs
  let watch := (ofConfig c).watchOf clock deadline
  let k := watch.1.inTime watch.2 pairs.length
  have hfile (s : Survey α) (source : String) (hs : s.config = c) :
      s.file clock deadline source given =
        (s.compareAll (pairs.take k)).map (s.reportOn source given (k < pairs.length)) := by
    subst hs
    exact s.file_eq_compareAll hclock deadline source given
  refine ⟨k, watch.1.inTime_le watch.2 pairs.length, hfile, fun source clock' ↦ ?_⟩
  have hreport := hfile (ofConfig c) source rfl
  have hwhole := file_eq_compareAll_of_timeBudget_eq_none
    (s := ofConfig { c with timeBudget := none }) rfl clock' source given
  rw [compareAll_ofConfig] at hreport hwhole
  refine ⟨_, _, hreport, hwhole, decide_eq_true_iff, ?_, ?_⟩
  · intro huncut
    have hk : ¬ k < pairs.length := of_decide_eq_false huncut
    rw [List.take_of_length_le (not_lt.mp hk), decide_eq_false hk]
    rfl
  · have hscan := scanRows_eq_compareAll_of_deadline_eq_none (s := ofConfig c)
      (w := ⟨clock, none⟩) rfl (candidates c given) 0
    rw [compareAll_ofConfig] at hscan
    refine ClonePair.sortBy_sublist hα
      (fun p hp ↦ (compared_of_mem_scanRows hscan hp).threshold_le)
      (nodup_places_scanRows (nodup_location_candidates c given) hscan) ?_
    exact (((List.take_sublist k pairs).filter _).map _).filter _

/-- Of three calls the first is compared with the others before the deadline has passed. The report
on so much is marked as cut short, and its two clone pairs are part of the three that there are. -/
theorem file_truncates_early :
    let c : Config ℚ := { Config.default with minLines := 1 }
    let call : Int → Fragment := fun line ↦
      { statements := [{ shape := "call", kind := "expression" }]
        location := ⟨"main", ⟨line, line, 1, 1⟩⟩ }
    let given := [some (call 1), some (call 11), some (call 21)]
    let clock : Clock ℚ := Clock.steady (.int 1)
    Scalar.Ordered ℚ ∧ clock.Ascends ∧
      ∃ report whole, (ofConfig c).file clock (some (.int 1)) "main" given = .ok report ∧
        (ofConfig c).file Clock.stopped none "main" given = .ok whole ∧
        report.truncated = true ∧ report.compared = 2 ∧ whole.compared = 3 ∧
        report.duplicates.Sublist whole.duplicates := by
  intro c call given clock
  have hclock : clock.Ascends := Clock.ascends_steady (by decide +kernel)
  obtain ⟨k, -, -, hreports⟩ :=
    file_truncates Scalar.ordered_rat c hclock (some (.int 1)) given
  obtain ⟨report, whole, hreport, hwhole, -, -, hsublist⟩ := hreports "main" Clock.stopped
  let pairs := [(call 1, call 11), (call 1, call 21), (call 11, call 21)]
  have hpairs : Listing.rowPairs (candidates (ofConfig c).config given) = pairs := by
    have hcandidates : candidates c given = [call 1, call 11, call 21] :=
      Listing.sortBy_of_pairwise (by decide +kernel)
    change Listing.rowPairs (candidates c given) = pairs
    rw [hcandidates]
    rfl
  have hlength (n : ℕ) (hn : n ≤ 3) : (((pairs.take n).filter fun p ↦
      Filter.admitsAll c Filter.standard p.1 p.2).map fun p ↦
        (⟨p.1, p.2, Similarity.compare c.weights p.1 p.2⟩ : ClonePair ℚ)).length = n := by
    have hadmits : ∀ p ∈ pairs, Filter.admitsAll c Filter.standard p.1 p.2 = true := by
      decide +kernel
    rw [List.length_map, List.filter_eq_self.mpr fun p hp ↦ hadmits p (List.mem_of_mem_take hp),
      List.length_take]
    exact Nat.min_eq_left hn
  have hinTime : ((ofConfig c).watchOf clock (some (.int 1))).1.inTime 0 3 = 2 := by
    decide +kernel
  have hearly := file_eq_compareAll (ofConfig c) hclock (some (.int 1)) "main" given
  have hall := file_eq_compareAll_of_timeBudget_eq_none (s := ofConfig c) rfl Clock.stopped "main"
    given
  simp only [hpairs, compareAll_ofConfig] at hearly hall
  obtain rfl := Except.ok.inj (hreport.symm.trans hearly)
  obtain rfl := Except.ok.inj (hwhole.symm.trans hall)
  refine ⟨Scalar.ordered_rat, hclock, _, _, hreport, hwhole, ?_, ?_, ?_, hsublist⟩
  · exact decide_eq_true (hinTime.trans_lt (Nat.lt_succ_self 2))
  · exact (hlength _ (hinTime.trans_le (Nat.le_succ 2))).trans hinTime
  · exact hlength 3 le_rfl

end Survey

end NearClone
