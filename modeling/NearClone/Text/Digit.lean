/-!
Decimal digits of all scripts. Each script has its ten digits in a row, so a table of the zeros is
enough.
-/

set_option autoImplicit false
set_option relaxedAutoImplicit false

namespace NearClone.Text

/-- The code points of the digits zero in Unicode 14.0, in ascending order. -/
def digitZeros : List Nat :=
  [0x30, 0x660, 0x6F0, 0x7C0, 0x966, 0x9E6, 0xA66, 0xAE6, 0xB66, 0xBE6, 0xC66, 0xCE6, 0xD66,
   0xDE6, 0xE50, 0xED0, 0xF20, 0x1040, 0x1090, 0x17E0, 0x1810, 0x1946, 0x19D0, 0x1A80, 0x1A90,
   0x1B50, 0x1BB0, 0x1C40, 0x1C50, 0xA620, 0xA8D0, 0xA900, 0xA9D0, 0xA9F0, 0xAA50, 0xABF0,
   0xFF10, 0x104A0, 0x10D30, 0x11066, 0x110F0, 0x11136, 0x111D0, 0x112F0, 0x11450, 0x114D0,
   0x11650, 0x116C0, 0x11730, 0x118E0, 0x11950, 0x11C50, 0x11D50, 0x11DA0, 0x16A60, 0x16AC0,
   0x16B50, 0x1D7CE, 0x1D7D8, 0x1D7E2, 0x1D7EC, 0x1D7F6, 0x1E140, 0x1E2F0, 0x1E950, 0x1FBF0]

/-- A decimal digit of some script. -/
def isDecimalDigit (c : Char) : Bool :=
  digitZeros.any fun first ↦ first ≤ c.toNat && c.toNat < first + 10

/-- The only decimal digits in the ASCII range are those from 0 to 9. -/
theorem toNat_of_isDecimalDigit {c : Char} (h : isDecimalDigit c) :
    48 ≤ c.toNat ∧ c.toNat < 58 ∨ 128 ≤ c.toNat := by
  have hzeros : ∀ first ∈ digitZeros, first = 48 ∨ 128 ≤ first := by decide
  obtain ⟨first, hfirst, hrange⟩ := List.any_eq_true.mp h
  rw [Bool.and_eq_true, decide_eq_true_eq, decide_eq_true_eq] at hrange
  have hzero := hzeros first hfirst
  omega

/-- The digits of the ASCII range are decimal digits. -/
theorem isDecimalDigit_of_isDigit {c : Char} (h : c.isDigit) : isDecimalDigit c := by
  obtain ⟨hfirst, hlast⟩ := Bool.and_eq_true_iff.mp h
  have hzero : 48 ≤ c.toNat := of_decide_eq_true hfirst
  have hnine : c.toNat ≤ 57 := of_decide_eq_true hlast
  refine List.any_eq_true.mpr ⟨48, List.mem_cons_self, ?_⟩
  rw [Bool.and_eq_true, decide_eq_true_eq, decide_eq_true_eq]
  omega

theorem not_isAlpha_of_isDecimalDigit {c : Char} (h : isDecimalDigit c) : ¬ c.isAlpha := by
  have hrange := toNat_of_isDecimalDigit h
  intro halpha
  rcases Bool.or_eq_true_iff.mp halpha with hupper | hlower
  · have hletters : 65 ≤ c.toNat ∧ c.toNat ≤ 90 := of_decide_eq_true hupper
    omega
  · have hletters : 97 ≤ c.toNat ∧ c.toNat ≤ 122 :=
      (Bool.and_eq_true_iff.mp hlower).imp of_decide_eq_true of_decide_eq_true
    omega

/-- The value of a list of ASCII digits, the most significant first. -/
def digitsValue (cs : List Char) : Nat := cs.foldl (fun n c ↦ 10 * n + (c.toNat - 48)) 0

end NearClone.Text
