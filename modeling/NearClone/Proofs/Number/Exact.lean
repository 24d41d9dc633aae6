import Mathlib.Algebra.Order.Field.Basic
import Mathlib.Algebra.Order.Field.Rat
import Mathlib.Data.Rat.Lemmas
import Mathlib.Tactic.FieldSimp
import Mathlib.Tactic.Linarith
import Mathlib.Tactic.Push
import Mathlib.Tactic.Ring
import NearClone.Number.Scalar

/-!
# Exact arithmetic

Over exact rationals the operations of a `Scalar` are those of the field of rationals, and rounding
is the only step that moves a number. `abs_roundRat_sub_le` says how far: a number at a given count
of decimal places is within half a unit of the last place. Rounding keeps the order and moves no
whole number of units (`roundRat_le_roundRat`, `roundRat_units`), and it takes to one exactly what
lies within half a unit of it, ties included (`roundRat_eq_one_iff`).

To sort by scores much less is needed of the order, and doubles have it too (`Scalar.Ordered`).
-/

set_option autoImplicit false
set_option relaxedAutoImplicit false

namespace NearClone

/-- The quotient of two counts is that of the rationals. -/
@[simp]
theorem Scalar.ratio_rat (part whole : ℕ) : (Scalar.ratio part whole : ℚ) = part / whole := rfl

/-! ### Order -/

/-- The order is one to sort by. Nothing is both less and greater than another, and not to be less
is transitive through every number, that is, through whatever is at least something: a result that
is no number never is. -/
structure Scalar.Ordered (α : Type) [Scalar α] : Prop where
  asymm : ∀ {x y : α}, x < y → ¬ y < x
  not_lt_trans : ∀ {least x y z : α}, least ≤ y → ¬ y < x → ¬ z < y → ¬ z < x

/-- Exact numbers are ordered. -/
theorem Scalar.ordered_rat : Scalar.Ordered ℚ where
  asymm := lt_asymm
  not_lt_trans _ hxy hyz := not_lt.mpr ((not_lt.mp hxy).trans (not_lt.mp hyz))

namespace Scalar.Ordered

variable {α : Type} [Scalar α] (h : Scalar.Ordered α)

include h

/-- To compare the other way round is to turn the outcome around. -/
theorem swap_compare (x y : α) : Scalar.compare x y = (Scalar.compare y x).swap := by
  rw [Scalar.compare, Scalar.compare]
  by_cases hlt : x < y
  · rw [if_pos hlt, if_neg (h.asymm hlt), if_pos hlt]
    rfl
  · rw [if_neg hlt, if_neg hlt]
    split <;> rfl

/-- A number comes at most as late as another if that is not less. -/
theorem isLE_compare_iff {x y : α} : (Scalar.compare x y).isLE = true ↔ ¬ y < x := by
  rw [Scalar.compare]
  by_cases hlt : x < y
  · rw [if_pos hlt]
    exact iff_of_true rfl (h.asymm hlt)
  · rw [if_neg hlt]
    by_cases hgt : y < x
    · rw [if_pos hgt]
      exact iff_of_false Bool.false_ne_true (not_not_intro hgt)
    · rw [if_neg hgt]
      exact iff_of_true rfl hgt

end Scalar.Ordered

namespace Number

/-! ### Rounding -/

/-- The nearest natural exceeds the quotient by at most a half. -/
theorem two_mul_nearest_mul_le (num : ℕ) {den : ℕ} (hden : 0 < den) :
    2 * (nearest num den * den) ≤ 2 * num + den := by
  have hsplit := Nat.div_add_mod' num den
  have hrest := Nat.mod_lt num hden
  simp only [nearest]
  split
  · rw [Nat.add_mul]
    omega
  · omega

/-- The nearest natural falls short of the quotient by at most a half. -/
theorem two_mul_le_nearest_mul (num : ℕ) {den : ℕ} (hden : 0 < den) :
    2 * num ≤ 2 * (nearest num den * den) + den := by
  have hsplit := Nat.div_add_mod' num den
  have hrest := Nat.mod_lt num hden
  simp only [nearest]
  split
  · rw [Nat.add_mul]
    omega
  · omega

/-- A quotient of naturals moves by at most half a unit when it is rounded to units of
`1 / scale`. -/
theorem abs_nearest_div_sub_le (num : ℕ) {den scale : ℕ} (hden : 0 < den) (hscale : 0 < scale) :
    |(nearest (num * scale) den : ℚ) / scale - num / den| ≤ 1 / (2 * scale) := by
  have hdenRat : (0 : ℚ) < den := by exact_mod_cast hden
  have hscaleRat : (0 : ℚ) < scale := by exact_mod_cast hscale
  have habove : (2 : ℚ) * (nearest (num * scale) den * den) ≤ 2 * (num * scale) + den := by
    exact_mod_cast two_mul_nearest_mul_le (num * scale) hden
  have hbelow : (2 : ℚ) * (num * scale) ≤ 2 * (nearest (num * scale) den * den) + den := by
    exact_mod_cast two_mul_le_nearest_mul (num * scale) hden
  have hdiff : (nearest (num * scale) den : ℚ) / scale - num / den =
      (nearest (num * scale) den * den - num * scale) / (scale * den) := by
    field_simp
  have hunit : (1 : ℚ) / (2 * scale) = den / 2 / (scale * den) := by
    field_simp
  rw [hdiff, hunit, abs_div, abs_of_pos (mul_pos hscaleRat hdenRat)]
  refine div_le_div_of_nonneg_right ?_ (mul_pos hscaleRat hdenRat).le
  rw [abs_le]
  constructor <;> linarith

/-- A rational moves by at most half a unit of the last place when it is rounded. -/
theorem abs_roundRat_sub_le (places : ℕ) (x : ℚ) :
    |roundRat places x - x| ≤ 1 / (2 * (Nat.pow 10 places : ℕ)) := by
  have hscale : 0 < Nat.pow 10 places := Nat.pow_pos (by decide)
  have hmagnitude := abs_nearest_div_sub_le x.num.natAbs x.den_pos hscale
  have hvalue : x = (x.num : ℚ) / x.den := (Rat.num_div_den x).symm
  simp only [roundRat, Rat.mkRat_eq_div]
  by_cases hsign : x.num < 0
  · have hnum : (x.num : ℚ) = -(x.num.natAbs : ℚ) := by
      rw [Nat.cast_natAbs, abs_of_neg hsign, Int.cast_neg, neg_neg]
    rw [if_pos hsign]
    nth_rewrite 3 [hvalue]
    rw [hnum, ← abs_neg]
    push_cast
    convert hmagnitude using 2
    ring
  · have hnum : (x.num : ℚ) = (x.num.natAbs : ℚ) := by
      rw [Nat.cast_natAbs, abs_of_nonneg (not_lt.mp hsign)]
    rw [if_neg hsign]
    nth_rewrite 3 [hvalue]
    rw [hnum]
    push_cast
    exact hmagnitude

/-- Rounding raises a rational by at most half a unit of the last place. -/
theorem roundRat_le_add (places : ℕ) (x : ℚ) :
    roundRat places x ≤ x + 1 / (2 * (Nat.pow 10 places : ℕ)) := by
  have habove := (abs_le.mp (abs_roundRat_sub_le places x)).2
  linarith

/-- There are some units of the last place in one. -/
theorem scale_pos (places : ℕ) : (0 : ℚ) < (Nat.pow 10 places : ℕ) := by
  exact_mod_cast Nat.pow_pos (by decide)

/-- A rounded rational is a whole number of units of the last place. -/
theorem exists_roundRat_eq (places : ℕ) (x : ℚ) :
    ∃ units : ℤ, roundRat places x = units / (Nat.pow 10 places : ℕ) :=
  ⟨_, Rat.mkRat_eq_div _ _⟩

/-- Rounding keeps the order: two results apart differ by a whole unit, and each is within half a
unit of its number. -/
theorem roundRat_le_roundRat (places : ℕ) {x y : ℚ} (h : x ≤ y) :
    roundRat places x ≤ roundRat places y := by
  by_contra hnot
  have hscale := scale_pos places
  obtain ⟨a, ha⟩ := exists_roundRat_eq places x
  obtain ⟨b, hb⟩ := exists_roundRat_eq places y
  have hless : b < a := by
    rw [not_le, ha, hb, div_lt_div_iff_of_pos_right hscale] at hnot
    exact_mod_cast hnot
  have hunit : roundRat places y + 1 / (Nat.pow 10 places : ℕ) ≤ roundRat places x := by
    rw [ha, hb, ← add_div, div_le_div_iff_of_pos_right hscale]
    exact_mod_cast hless
  have hx := (abs_le.mp (abs_roundRat_sub_le places x)).2
  have hy := (abs_le.mp (abs_roundRat_sub_le places y)).1
  have hhalves : (1 : ℚ) / (Nat.pow 10 places : ℕ) = 2 * (1 / (2 * (Nat.pow 10 places : ℕ))) := by
    field_simp
  have hsame : x = y := by linarith
  exact hnot (hsame ▸ le_rfl)

/-- A whole number of units is not moved. -/
theorem roundRat_units (places : ℕ) (units : ℤ) :
    roundRat places (units / (Nat.pow 10 places : ℕ)) = units / (Nat.pow 10 places : ℕ) := by
  have hscale := scale_pos places
  obtain ⟨a, ha⟩ := exists_roundRat_eq places (units / (Nat.pow 10 places : ℕ))
  have hnear := abs_roundRat_sub_le places (units / (Nat.pow 10 places : ℕ))
  rw [ha, ← sub_div, abs_div, abs_of_pos hscale, ← div_div, div_le_div_iff_of_pos_right hscale]
    at hnear
  have hless : |(a - units : ℤ)| < 1 := by
    have hlt : |((a - units : ℤ) : ℚ)| < 1 := by
      push_cast
      linarith
    exact_mod_cast hlt
  rw [ha, sub_eq_zero.mp (Int.abs_lt_one_iff.mp hless)]

@[simp]
theorem roundRat_zero (places : ℕ) : roundRat places 0 = 0 := by
  simpa using roundRat_units places 0

@[simp]
theorem roundRat_one (places : ℕ) : roundRat places 1 = 1 := by
  have hunits := roundRat_units places (Nat.pow 10 places : ℕ)
  rwa [Int.cast_natCast, div_self (scale_pos places).ne'] at hunits

/-- Shares stay shares when they are rounded. -/
theorem roundRat_mem_Icc (places : ℕ) {x : ℚ} (h : x ∈ Set.Icc 0 1) :
    roundRat places x ∈ Set.Icc 0 1 := by
  have hlow := roundRat_le_roundRat places h.1
  have hhigh := roundRat_le_roundRat places h.2
  rw [roundRat_zero] at hlow
  rw [roundRat_one] at hhigh
  exact ⟨hlow, hhigh⟩

/-- An even natural is the nearest one up to a distance of one half, ties included. -/
theorem nearest_eq_of_even {num den n : ℕ} (hden : 0 < den) (heven : n % 2 = 0)
    (hbelow : 2 * (n * den) ≤ 2 * num + den) (habove : 2 * num ≤ 2 * (n * den) + den) :
    nearest num den = n := by
  have hsplit := Nat.div_add_mod' num den
  have hrest := Nat.mod_lt num hden
  have hlow : num / den ≤ n := by
    rw [← Nat.lt_succ_iff, Nat.div_lt_iff_lt_mul hden, Nat.succ_mul]
    omega
  have hhigh : n ≤ num / den + 1 := by
    have hmul : n * den < (num / den + 2) * den := by
      rw [Nat.add_mul]
      omega
    exact Nat.lt_succ_iff.mp (Nat.lt_of_mul_lt_mul_right hmul)
  rcases Nat.eq_or_lt_of_le hlow with h | h
  · rw [h] at hsplit
    simp only [nearest, h]
    rw [if_neg]
    omega
  · have hnext : n = num / den + 1 := by omega
    rw [hnext, Nat.add_mul] at hbelow
    simp only [nearest]
    rw [if_pos, hnext]
    omega

/-- A rational that is not negative is rounded by its numerator and denominator. -/
theorem roundRat_of_nonneg (places : ℕ) {x : ℚ} (h : 0 ≤ x) :
    roundRat places x =
      nearest (x.num.natAbs * Nat.pow 10 places) x.den / (Nat.pow 10 places : ℕ) := by
  have hsign : ¬ x.num < 0 := not_lt.mpr (Rat.num_nonneg.mpr h)
  simp only [roundRat, if_neg hsign, Rat.mkRat_eq_div, Int.cast_natCast]

/-- The nearest natural to a number within half of an even one is that one. -/
theorem nearest_num_eq_of_even {x : ℚ} (hx : 0 ≤ x) {n scale : ℕ} (heven : n % 2 = 0)
    (h : |x * scale - n| ≤ 1 / 2) : nearest (x.num.natAbs * scale) x.den = n := by
  have hden : (0 : ℚ) ≤ x.den := Nat.cast_nonneg _
  have hnum : (x.num.natAbs : ℚ) = x * x.den := by
    rw [Nat.cast_natAbs, abs_of_nonneg (Rat.num_nonneg.mpr hx), Rat.mul_den_eq_num]
  have hbelow := mul_le_mul_of_nonneg_right (abs_le.mp h).1 hden
  have habove := mul_le_mul_of_nonneg_right (abs_le.mp h).2 hden
  refine nearest_eq_of_even x.den_pos heven ?_ ?_
  · rw [← Nat.cast_le (α := ℚ)]
    push_cast
    rw [hnum]
    linarith
  · rw [← Nat.cast_le (α := ℚ)]
    push_cast
    rw [hnum]
    linarith

/-- What is rounded to one lies within half a unit of the last place from it. -/
theorem roundRat_eq_one_iff {places : ℕ} (hplaces : places ≠ 0) (x : ℚ) :
    roundRat places x = 1 ↔ |x - 1| ≤ 1 / (2 * (Nat.pow 10 places : ℕ)) := by
  constructor
  · intro h
    have hnear := abs_roundRat_sub_le places x
    rwa [h, abs_sub_comm] at hnear
  · intro h
    have hscale := scale_pos places
    have heven : Nat.pow 10 places % 2 = 0 := by
      obtain ⟨k, rfl⟩ := Nat.exists_eq_succ_of_ne_zero hplaces
      rw [Nat.pow_eq, Nat.pow_succ]
      omega
    have hhalf : |x * (Nat.pow 10 places : ℕ) - (Nat.pow 10 places : ℕ)| ≤ 1 / 2 := by
      rw [← sub_one_mul, abs_mul, abs_of_pos hscale, ← le_div_iff₀ hscale, div_div]
      exact h
    have hnonneg : 0 ≤ x := by
      have hone : (1 : ℚ) ≤ (Nat.pow 10 places : ℕ) := by exact_mod_cast hscale
      nlinarith [(abs_le.mp hhalf).1]
    rw [roundRat_of_nonneg places hnonneg, nearest_num_eq_of_even hnonneg heven hhalf]
    exact div_self hscale.ne'

end Number

end NearClone
