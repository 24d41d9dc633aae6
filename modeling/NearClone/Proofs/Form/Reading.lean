import NearClone.Proofs.Form.Config

/-!
# Readings that take back what was written

A reading takes back what was written if it lets through what it is there for, and nothing else, and
reads no other value in it (`TakesBack`). Integers, shares and numbers above zero, flags and scopes
are taken back within their bounds, and so is a value that may be missing (`TakesBack.nullable`). A
field that is not given has its standard value, and one that was written has the value that was
(`TakesBack.orElse_eq_ok_iff`).
-/

set_option autoImplicit false
set_option relaxedAutoImplicit false

namespace NearClone

namespace Form

/-! ### What checks let through -/

namespace Checked

variable {α β γ : Type}

theorem map_eq_ok_iff {f : β → γ} {x : Checked α β} {result : γ} :
    x.map f = ok result ↔ ∃ value, x = ok value ∧ f value = result := by
  cases x <;> simp [map]

theorem under_eq_ok_iff {step : Step} {x : Checked α β} {value : β} :
    x.under step = ok value ↔ x = ok value := by
  cases x <;> simp [under]

end Checked

/-! ### What readings take back -/

open Checked

variable {α β : Type}

/-- Of what is written, a reading lets through the values that have a property, each as it is. -/
def TakesBack (r : Reading α β) (write : β → Document α) (P : β → Prop) : Prop :=
  ∀ value result, r (write value) = ok result ↔ P value ∧ value = result

section Fields

variable {r : Reading α β} {write : β → Document α} {P : β → Prop}

/-- A value that has the property is taken back. -/
theorem TakesBack.eq_ok (hr : TakesBack r write P) {value : β} (h : P value) :
    r (write value) = ok value :=
  (hr value value).mpr ⟨h, rfl⟩

/-- A value that may be missing is taken back, where no value is written as null. -/
theorem TakesBack.nullable (hr : TakesBack r write P) (hwrite : ∀ value, write value ≠ .null) :
    TakesBack (Form.nullable r) (fun value ↦ value.elim .null write)
      fun value ↦ ∀ x ∈ value, P x := by
  rintro (_ | x) result
  · simp [Form.nullable]
  · have hnull : Form.nullable r (write x) = (r (write x)).map some := by
      unfold Form.nullable
      split
      · next h => exact absurd h (hwrite x)
      · rfl
    change Form.nullable r (write x) = ok result ↔ (∀ y ∈ some x, P y) ∧ some x = result
    rw [hnull, map_eq_ok_iff]
    constructor
    · rintro ⟨value, hvalue, rfl⟩
      obtain ⟨hx, rfl⟩ := (hr x value).mp hvalue
      exact ⟨fun y hy ↦ Option.some.inj hy ▸ hx, rfl⟩
    · rintro ⟨hx, rfl⟩
      exact ⟨x, hr.eq_ok (hx x rfl), rfl⟩

variable {fields : List (String × Document α)} {name : String} {standard result : β}

/-- A field that is not given has its standard value. -/
theorem orElse_eq_ok_iff_of_lookup_eq_none (h : fields.lookup name = none) :
    orElse fields name standard r = ok result ↔ standard = result := by
  simp only [orElse, h, ok.injEq]

/-- A field that was written has the value that was, if it has the property, and one that is not
given has its standard value. -/
theorem TakesBack.orElse_eq_ok_iff (hr : TakesBack r write P) {given : Option β}
    (h : fields.lookup name = given.map write) :
    orElse fields name standard r = ok result ↔
      (∀ value ∈ given, P value) ∧ given.getD standard = result := by
  cases given with
  | none =>
    rw [orElse_eq_ok_iff_of_lookup_eq_none h]
    simp
  | some value =>
    rw [Option.map_some] at h
    simp only [orElse, h]
    rw [under_eq_ok_iff, hr value result]
    simp

/-- A field that was written has the value that was, if it has the property. -/
theorem TakesBack.orElse_written (hr : TakesBack r write P) {value : β}
    (h : fields.lookup name = some (write value)) :
    orElse fields name standard r = ok result ↔ P value ∧ value = result := by
  have hgiven : fields.lookup name = (some value).map write := h
  rw [hr.orElse_eq_ok_iff hgiven]
  simp

end Fields

/-- Any scope is taken back by its name. -/
theorem takesBack_scope :
    TakesBack (Scope.reading : Reading α Scope) (fun scope ↦ .text scope.name) fun _ ↦ True := by
  intro scope result
  simp [Scope.reading, choice]

section Values

variable [Numeral α]

/-- An integer is taken back if it is not below the least one. -/
theorem takesBack_integerFrom (least : ℕ) :
    TakesBack (integerFrom least : Reading α ℤ) .int fun n ↦ (least : ℤ) ≤ n := by
  intro n result
  change (if (least : ℤ) ≤ n then ok n else fault (.below least (.int n))) = ok result ↔ _
  rw [ite_fault_eq_ok_iff, ok.injEq]

/-- A share is taken back. -/
theorem takesBack_share : TakesBack (share : Reading α α) .number IsShare := by
  intro x result
  change (if x ≤ Scalar.ofInt 1 then
    if Scalar.ofInt 0 ≤ x then ok x else fault (.below 0 (.real x))
    else fault (.above 1 (.real x))) = ok result ↔ _
  rw [ite_fault_eq_ok_iff, ite_fault_eq_ok_iff, ok.injEq, ← and_assoc, IsShare,
    and_comm (a := x ≤ Scalar.ofInt 1)]

/-- A number above zero is taken back. -/
theorem takesBack_positive :
    TakesBack (positive : Reading α α) .number fun x ↦ Scalar.ofInt 0 < x := by
  intro x result
  change (if Scalar.ofInt 0 < x then ok x else fault (.notAbove 0 (.real x))) = ok result ↔ _
  rw [ite_fault_eq_ok_iff, ok.injEq]

/-- A number above zero that may be missing is taken back. -/
theorem takesBack_nullable_positive :
    TakesBack (nullable positive) (fun given : Option α ↦ given.elim .null .number)
      fun given ↦ ∀ x ∈ given, Scalar.ofInt 0 < x :=
  takesBack_positive.nullable fun _ hnull ↦ nomatch hnull

/-- Any flag is taken back. -/
theorem takesBack_flag : TakesBack (flag : Reading α Bool) .flag fun _ ↦ True := by
  intro b result
  simp [flag]

end Values

end Form

end NearClone
