import NearClone.Survey.Report

/-!
# Scans step by step

The equations of a scan, one for each way to go on, and its totality: where no comparison fails, a
scan of any candidates has an outcome (`isOk_scanRows`). What a scan has found comes about pair by
pair and row by row, and what each step keeps holds of the whole (`scanRow_induction`,
`scanRows_induction`). The clock matters only as far as it is read (`scanRows_congr`). The report on
a file is a function of the outcome alone (`file_eq_report`).
-/

set_option autoImplicit false
set_option relaxedAutoImplicit false

namespace NearClone

variable {α : Type}

/-- What is made of an outcome is found if the outcome is. -/
theorem Survey.map_eq_ok_iff {β γ : Type} {make : β → γ} {outcome : Except String β} {made : γ} :
    outcome.map make = .ok made ↔ ∃ found, outcome = .ok found ∧ made = make found := by
  cases outcome with
  | error message => exact iff_of_false (fun h ↦ nomatch h) fun ⟨_, h, _⟩ ↦ nomatch h
  | ok found => simp only [Except.map, Except.ok.injEq, exists_eq_left', eq_comm]

/-- Without a deadline time does not run out, and the clock is not read. -/
theorem Watch.check_of_deadline_eq_none [Scalar α] {w : Watch α} (h : w.deadline = none)
    (reads : Nat) : w.check reads = (false, reads) := by
  simp only [Watch.check, h]

namespace Survey

variable [Scalar α]

/-- One pair of a row: the clock, the filters, the comparison, and then the rest of the row. -/
theorem scanRow_cons (s : Survey α) (w : Watch α) (f g : Fragment) (rest : List Fragment)
    (reads : Nat) :
    s.scanRow w f (g :: rest) reads =
      if (w.check reads).1 then (.ok { truncated := true }, (w.check reads).2)
      else if Filter.admitsAll s.config s.filters f g then
        match s.compare f g with
        | .error message => (.error message, (w.check reads).2)
        | .ok similarity =>
          ((s.scanRow w f rest (w.check reads).2).1.map (s.judge f g similarity).append,
            (s.scanRow w f rest (w.check reads).2).2)
      else s.scanRow w f rest (w.check reads).2 := rfl

/-- One row of a scan, and then the rows behind it. -/
theorem scanRows_cons (s : Survey α) (w : Watch α) (f : Fragment) (rest : List Fragment)
    (reads : Nat) :
    s.scanRows w (f :: rest) reads =
      match s.scanRow w f rest reads with
      | (.error message, reads) => (.error message, reads)
      | (.ok row, reads) =>
        ((s.scanRows w rest reads).1.map row.append, (s.scanRows w rest reads).2) := rfl

/-- What holds of an empty row and of one that time has ended, and is kept by a pair that the
filters turn away and by one that is compared, holds of every row that was found. -/
theorem scanRow_induction {s : Survey α} {w : Watch α} {f : Fragment}
    {motive : List Fragment → Scan α → Prop} (nil : motive [] {})
    (late : ∀ g rest reads, (w.check reads).1 = true → motive (g :: rest) { truncated := true })
    (skip : ∀ g rest row, ¬ Filter.admitsAll s.config s.filters f g = true → motive rest row →
      motive (g :: rest) row)
    (judged : ∀ g rest similarity row, Filter.admitsAll s.config s.filters f g = true →
      s.compare f g = .ok similarity → motive rest row →
        motive (g :: rest) ((s.judge f g similarity).append row))
    {gs : List Fragment} {reads : Nat} {row : Scan α}
    (h : (s.scanRow w f gs reads).1 = .ok row) : motive gs row := by
  induction gs generalizing reads row with
  | nil =>
    obtain rfl := Except.ok.inj h
    exact nil
  | cons g rest ih =>
    rw [scanRow_cons] at h
    by_cases hlate : (w.check reads).1 = true
    · rw [if_pos hlate] at h
      obtain rfl := Except.ok.inj h
      exact late g rest reads hlate
    rw [if_neg hlate] at h
    by_cases hadmits : Filter.admitsAll s.config s.filters f g = true
    · rw [if_pos hadmits] at h
      cases hcompare : s.compare f g with
      | error message =>
        rw [hcompare] at h
        exact nomatch h
      | ok similarity =>
        rw [hcompare] at h
        obtain ⟨tail, htail, rfl⟩ := map_eq_ok_iff.mp h
        exact judged g rest similarity tail hadmits hcompare (ih htail)
    · rw [if_neg hadmits] at h
      exact skip g rest row hadmits (ih h)

/-- What holds of a scan of nothing, and is kept when a row comes in front, holds of every scan that
was found. -/
theorem scanRows_induction {s : Survey α} {w : Watch α} {motive : List Fragment → Scan α → Prop}
    (nil : motive [] {})
    (cons : ∀ f rest reads row tail, (s.scanRow w f rest reads).1 = .ok row → motive rest tail →
      motive (f :: rest) (row.append tail))
    {fs : List Fragment} {reads : Nat} {scan : Scan α}
    (h : (s.scanRows w fs reads).1 = .ok scan) : motive fs scan := by
  induction fs generalizing reads scan with
  | nil =>
    obtain rfl := Except.ok.inj h
    exact nil
  | cons f rest ih =>
    rw [scanRows_cons] at h
    cases hrow : s.scanRow w f rest reads with
    | mk outcome behind =>
      rw [hrow] at h
      cases outcome with
      | error message => exact nomatch h
      | ok row =>
        obtain ⟨tail, htail, rfl⟩ := map_eq_ok_iff.mp h
        exact cons f rest reads row tail (congrArg Prod.fst hrow) (ih htail)

/-- Watches that always agree make the same row. -/
theorem scanRow_congr {w w' : Watch α} (hw : ∀ reads, w.check reads = w'.check reads)
    (s : Survey α) (f : Fragment) (gs : List Fragment) (reads : Nat) :
    s.scanRow w f gs reads = s.scanRow w' f gs reads := by
  induction gs generalizing reads with
  | nil => rfl
  | cons g rest ih => simp only [scanRow_cons, hw, ih]

/-- Watches that always agree make the same scan. -/
theorem scanRows_congr {w w' : Watch α} (hw : ∀ reads, w.check reads = w'.check reads)
    (s : Survey α) (fs : List Fragment) (reads : Nat) :
    s.scanRows w fs reads = s.scanRows w' fs reads := by
  induction fs generalizing reads with
  | nil => rfl
  | cons f rest ih => simp only [scanRows_cons, scanRow_congr hw, ih]

/-- No comparison fails. -/
def NeverFails (s : Survey α) : Prop := ∀ f g, ∃ similarity, s.compare f g = .ok similarity

/-- The comparison that a configuration asks for never fails. -/
theorem neverFails_ofConfig (c : Config α) : (ofConfig c).NeverFails :=
  fun f g ↦ ⟨Similarity.compare c.weights f g, rfl⟩

/-- Where no comparison fails, every row has an outcome. -/
theorem isOk_scanRow {s : Survey α} (hs : s.NeverFails) (w : Watch α) (f : Fragment)
    (gs : List Fragment) (reads : Nat) : ∃ row, (s.scanRow w f gs reads).1 = .ok row := by
  induction gs generalizing reads with
  | nil => exact ⟨{}, rfl⟩
  | cons g rest ih =>
    obtain ⟨similarity, hcompare⟩ := hs f g
    obtain ⟨tail, htail⟩ := ih (w.check reads).2
    rw [scanRow_cons, hcompare]
    split
    · exact ⟨_, rfl⟩
    · split
      · exact ⟨(s.judge f g similarity).append tail, congrArg (Except.map _) htail⟩
      · exact ⟨tail, htail⟩

/-- Where no comparison fails, every scan has an outcome. -/
theorem isOk_scanRows {s : Survey α} (hs : s.NeverFails) (w : Watch α) (fs : List Fragment)
    (reads : Nat) : ∃ scan, (s.scanRows w fs reads).1 = .ok scan := by
  induction fs generalizing reads with
  | nil => exact ⟨{}, rfl⟩
  | cons f rest ih =>
    obtain ⟨row, hrow⟩ := isOk_scanRow hs w f rest reads
    obtain ⟨tail, htail⟩ := ih (s.scanRow w f rest reads).2
    have hpair : s.scanRow w f rest reads = (.ok row, (s.scanRow w f rest reads).2) :=
      Prod.ext hrow rfl
    rw [scanRows_cons, hpair]
    exact ⟨row.append tail, congrArg (Except.map _) htail⟩

/-- The watch over the report on a file, and the count of clock readings at its start. -/
def watchOf (s : Survey α) (clock : Clock α) (deadline : Option (Quantity α)) : Watch α × Nat :=
  match deadline with
  | some _ => (⟨clock, deadline⟩, 0)
  | none => Watch.start clock s.config.timeBudget 0

/-- Without a time budget there is no deadline for a file, unless one is given. -/
theorem deadline_watchOf {s : Survey α} (h : s.config.timeBudget = none) (clock : Clock α) :
    (s.watchOf clock none).1.deadline = none := by
  simp only [watchOf, Watch.start, h]

/-- The report on a file is that on its candidates under the watch of the file. -/
theorem file_eq_report (s : Survey α) (clock : Clock α) (deadline : Option (Quantity α))
    (source : String) (given : List (Option Fragment)) :
    s.file clock deadline source given =
      ((s.scanRows (s.watchOf clock deadline).1 (candidates s.config given)
        (s.watchOf clock deadline).2).1.map
          (reportOf s.config source (candidates s.config given).length)) := by
  cases deadline with
  | none => rfl
  | some _ => rfl

end Survey

end NearClone
