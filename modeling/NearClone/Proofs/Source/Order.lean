import NearClone.Proofs.Listing.Sorted
import NearClone.Source.Fragment

/-!
# The reading order

Locations are read by their starts and then by all that remains. Both comparisons are transitive,
and only equal locations compare equal (`Location.compareReading_eq_eq_iff`), so that fragments at
different locations always stand in one order.
-/

set_option autoImplicit false
set_option relaxedAutoImplicit false

namespace NearClone

/-- Ranges are compared transitively. -/
instance SourceRange.transCmp_compare : Std.TransCmp SourceRange.compare :=
  inferInstanceAs (Std.TransCmp
    (compareLex (compareOn fun r : SourceRange ↦ r.startLine) <|
      compareLex (compareOn fun r : SourceRange ↦ r.endLine) <|
        compareLex (compareOn fun r : SourceRange ↦ r.startColumn)
          (compareOn fun r : SourceRange ↦ r.endColumn)))

/-- Only equal ranges compare equal. -/
theorem SourceRange.eq_of_compare_eq {r s : SourceRange} (h : SourceRange.compare r s = .eq) :
    r = s := by
  simp only [SourceRange.compare, compareLex_eq_eq, compareOn,
    Std.LawfulEqOrd.compare_eq_iff_eq] at h
  obtain ⟨hstart, hend, hstartColumn, hendColumn⟩ := h
  cases r
  cases s
  simp only [SourceRange.mk.injEq]
  exact ⟨hstart, hend, hstartColumn, hendColumn⟩

namespace Location

/-- Locations are compared by their ranges transitively. -/
instance transCmp_range :
    Std.TransCmp fun a b : Location ↦ SourceRange.compare a.range b.range :=
  Listing.transCmp_on SourceRange.compare fun l : Location ↦ l.range

/-- Locations are compared transitively. -/
instance transCmp_compare : Std.TransCmp Location.compare :=
  inferInstanceAs (Std.TransCmp
    (compareLex (compareOn fun l : Location ↦ l.file)
      fun a b ↦ SourceRange.compare a.range b.range))

/-- Locations are compared by their starts transitively. -/
instance transCmp_compareStart : Std.TransCmp Location.compareStart :=
  inferInstanceAs (Std.TransCmp
    (compareLex (compareOn fun l : Location ↦ l.range.startLine) <|
      compareLex (compareOn fun l : Location ↦ l.file)
        (compareOn fun l : Location ↦ l.range.startColumn)))

/-- Locations are read transitively. -/
instance transCmp_compareReading : Std.TransCmp Location.compareReading :=
  inferInstanceAs (Std.TransCmp (compareLex Location.compareStart Location.compare))

/-- Only equal locations compare equal. -/
theorem eq_of_compare_eq {a b : Location} (h : Location.compare a b = .eq) : a = b := by
  rw [Location.compare, compareLex_eq_eq, compareOn, Std.LawfulEqOrd.compare_eq_iff_eq] at h
  cases a
  cases b
  rw [Location.mk.injEq]
  exact ⟨h.1, SourceRange.eq_of_compare_eq h.2⟩

/-- Only equal locations are at the same place of the reading order. -/
theorem compareReading_eq_eq_iff {a b : Location} : a.compareReading b = .eq ↔ a = b := by
  constructor
  · intro h
    exact eq_of_compare_eq (compareLex_eq_eq.mp h).2
  · rintro rfl
    exact Std.ReflCmp.compare_self

end Location

namespace Fragment

/-- Fragments at one location are the same. -/
def Unambiguous (fs : List Fragment) : Prop :=
  ∀ f ∈ fs, ∀ g ∈ fs, f.location = g.location → f = g

/-- Fragments are compared by their starts transitively. -/
instance transCmp_compareStart : Std.TransCmp Fragment.compareStart :=
  Listing.transCmp_on Location.compareStart Fragment.location

/-- Fragments are read transitively. -/
instance transCmp_compareReading : Std.TransCmp Fragment.compareReading :=
  Listing.transCmp_on Location.compareReading Fragment.location

/-- Only fragments at one location are at the same place of the reading order. -/
theorem compareReading_eq_eq_iff {f g : Fragment} :
    f.compareReading g = .eq ↔ f.location = g.location :=
  Location.compareReading_eq_eq_iff

end Fragment

end NearClone
