import NearClone.Proofs.Literal.Grammar

/-!
# Reading a literal

Each test for a class of literals decides membership in the language of that class
(`isBoolean_iff`, `isString_iff`, `isInteger_iff`, `isNumber_iff`). The tests take a sign off the
front of a text, a suffix off its back, and a mantissa up to the letter of an exponent. No choice at
such a cut can be wrong, since the characters that decide it are none of the part before it, or do
not begin the part after it; the lemmas `_le_many` and `_le_starting` say so for each part.

The three kinds of literals have no text in common, so their tests could stand in any order. Only
an integer is also a number, and is tested first. `recognizes_grammar` puts this together for a text
with blanks around it.
-/

set_option autoImplicit false
set_option relaxedAutoImplicit false

namespace NearClone.Literal

open Grammar

variable {cs : List Char} {l m : Language Char} {chars : String} {r : Char → Bool}

/-! ### Digits -/

theorem digit_zero : Digit '0' := by
  unfold Digit; decide

/-- An ASCII character outside the range of digits is no digit. -/
theorem digit_notMem {c : Char} {ds : List Char} (hc : Digit c)
    (h : ∀ d ∈ ds, d.toNat < 48 ∨ 58 ≤ d.toNat ∧ d.toNat < 128) : c ∉ ds := by
  intro hmem
  have hrange := Text.toNat_of_isDecimalDigit hc
  have hascii := h c hmem
  omega

theorem isGrouped_iff : isGrouped cs ↔ cs ∈ grouped := by
  cases cs with
  | nil => exact iff_of_false Bool.false_ne_true nil_notMem_one_mul
  | cons c cs =>
    rw [isGrouped, grouped, cons_mem_one_mul, Bool.and_eq_true, List.all_eq_true]
    simp only [isDigitOrMark, Bool.or_eq_true, decide_eq_true_eq]
    rfl

/-- The characters of grouped digits are digits and separators. -/
theorem grouped_le_many {p : Char → Prop} (hdigit : ∀ c, Digit c → p c) (hmark : p '_') :
    grouped ≤ many p :=
  mul_le_many (one_le_many hdigit) (many_mono fun c hc ↦ hc.elim (hdigit c) (· ▸ hmark))

theorem isDigits_iff : isDigits cs ↔ cs ∈ atLeastOne Digit := by
  rw [mem_atLeastOne, isDigits, Bool.and_eq_true, Bool.not_eq_true', List.isEmpty_eq_false_iff,
    List.all_eq_true]
  rfl

/-! ### Signs and suffixes -/

theorem dropSign_iff (hl : l ≤ starting (· ∉ "+-".toList)) : dropSign cs ∈ l ↔ cs ∈ sign * l := by
  have hnot {c : Char} {rest : List Char} (hc : c ∈ "+-".toList) : c :: rest ∉ l := fun h ↦
    (cons_mem_one_mul.mp (hl h)).1 hc
  rw [sign, mem_maybe_mul, oneOf]
  fun_cases dropSign cs with
  | case1 rest => rw [cons_mem_one_mul, or_iff_right (hnot (by decide)), and_iff_right (by decide)]
  | case2 rest => rw [cons_mem_one_mul, or_iff_right (hnot (by decide)), and_iff_right (by decide)]
  | case3 rest hminus hplus =>
    refine (or_iff_left fun hcs ↦ ?_).symm
    obtain ⟨c, rest, rfl, hc, -⟩ := mem_one_mul.mp hcs
    rcases List.mem_pair.mp hc with rfl | rfl
    · exact hplus rest rfl
    · exact hminus rest rfl

theorem dropSuffix_iff (hr : ∀ c, r c ↔ c ∈ chars.toList) (hl : l ≤ many (· ∉ chars.toList)) :
    dropSuffix r cs ∈ l ↔ cs ∈ l * maybe (oneOf chars) := by
  rw [mem_mul_maybe, oneOf, dropSuffix]
  rcases List.eq_nil_or_concat' cs with rfl | ⟨front, c, rfl⟩
  · refine (or_iff_left fun h ↦ ?_).symm
    obtain ⟨front, c, heq, -⟩ := mem_mul_one.mp h
    exact List.concat_ne_nil c front heq.symm
  · rw [List.getLast?_concat, concat_mem_mul_one, ← hr]
    by_cases hc : r c
    · have hnot : front ++ [c] ∉ l := fun h ↦ hl h c List.mem_concat_self ((hr c).mp hc)
      simp only [hc, if_true, List.dropLast_concat, hnot, false_or, and_true]
    · simp only [hc, Bool.false_eq_true, if_false, and_false, or_false]

/-! ### Integers -/

theorem mem_based {base digits : String} :
    cs ∈ based base digits ↔
      ∃ mark rest, cs = '0' :: mark :: rest ∧ mark ∈ base.toList ∧
        rest ∈ atLeastOne (· ∈ digits.toList) := by
  rw [based, mul_assoc, oneOf, mem_one_mul]
  constructor
  · rintro ⟨zero, cs, rfl, hzero, hcs⟩
    obtain ⟨mark, rest, rfl, hmark, hrest⟩ := mem_one_mul.mp hcs
    obtain rfl := List.mem_singleton.mp hzero
    exact ⟨mark, rest, rfl, hmark, hrest⟩
  · rintro ⟨mark, rest, rfl, hmark, hrest⟩
    exact ⟨'0', mark :: rest, rfl, by decide, mem_one_mul.mpr ⟨mark, rest, rfl, hmark, hrest⟩⟩

theorem isHexOrMark_iff {c : Char} :
    isHexOrMark c ↔ c ∈ "0123456789abcdefABCDEF_".toList := by
  simp only [isHexOrMark, Char.le_def, UInt32.le_iff_toNat_le]
  simp [Char.ext_iff, ← UInt32.toNat_inj]
  omega

theorem isBinaryOrMark_iff {c : Char} : isBinaryOrMark c ↔ c ∈ "01_".toList := by
  simp [isBinaryOrMark, or_assoc]

theorem isMagnitude_iff : isMagnitude cs ↔ cs ∈ magnitude := by
  rw [magnitude, Language.mem_add, Language.mem_add, mem_based, mem_based, ← isGrouped_iff]
  fun_cases isMagnitude cs with
  | case1 mark digits =>
    simp [mem_atLeastOne, isHexOrMark_iff, isBinaryOrMark_iff, and_assoc, or_assoc]
  | case2 cs hshort =>
    refine (or_iff_right ?_).symm
    rintro (⟨mark, rest, rfl, -⟩ | ⟨mark, rest, rfl, -⟩) <;> exact hshort mark rest rfl

/-- The characters of magnitudes are digits and the given ones. -/
theorem magnitude_le_many {p : Char → Prop} (hdigit : ∀ c, Digit c → p c)
    (hrest : ∀ c ∈ "0123456789abcdefABCDEF_xX".toList, p c) : magnitude ≤ many p := by
  have hzero : oneOf "0" ≤ many p :=
    one_le_many fun c hc ↦ List.mem_singleton.mp hc ▸ hdigit '0' digit_zero
  have hbased {base digits : String} (hbase : base.toList ⊆ "0123456789abcdefABCDEF_xX".toList)
      (hdigits : digits.toList ⊆ "0123456789abcdefABCDEF_xX".toList) :
      based base digits ≤ many p :=
    mul_le_many (mul_le_many hzero (one_le_many fun c hc ↦ hrest c (hbase hc)))
      (atLeastOne_le_many fun c hc ↦ hrest c (hdigits hc))
  exact add_le (add_le (hbased (by simp) (by simp)) (hbased (by simp) (by simp)))
    (grouped_le_many hdigit (hrest '_' (by simp)))

/-- Magnitudes begin with a digit. -/
theorem magnitude_le_starting : magnitude ≤ starting Digit := by
  have hbased {base digits : String} : based base digits ≤ starting Digit := by
    rw [based, mul_assoc]
    exact one_mul_le_starting fun c hc ↦ List.mem_singleton.mp hc ▸ digit_zero
  exact add_le (add_le hbased hbased) (one_mul_le_starting fun c hc ↦ hc)

theorem isInteger_iff : isInteger cs ↔ cs ∈ integer := by
  have hmagnitude : magnitude ≤ many (· ∉ "lL".toList) :=
    magnitude_le_many (fun c hc ↦ digit_notMem hc (by simp)) (by simp)
  have hhead : magnitude * maybe (oneOf "lL") ≤ starting (· ∉ "+-".toList) :=
    mul_le_starting (magnitude_le_starting.trans
      (starting_mono fun c hc ↦ digit_notMem hc (by simp)))
  have hsuffix (c : Char) : (decide (c = 'l') || decide (c = 'L')) ↔ c ∈ "lL".toList := by simp
  rw [isInteger, isMagnitude_iff, dropSuffix_iff hsuffix hmagnitude, dropSign_iff hhead, integer,
    mul_assoc]

/-! ### Numbers -/

theorem isMantissa_iff : isMantissa cs ↔ cs ∈ mantissa := by
  have hdigit (c : Char) (hc : Digit c) : c ∉ ['.'] := digit_notMem hc (by simp)
  have hgrouped : grouped ≤ many fun c ↦ decide (c ≠ '.') :=
    grouped_le_many (fun c hc ↦ by simpa using hdigit c hc) (by simp)
  have hpoint {m : Language Char} : oneOf "." * m ≤ starting fun c ↦ ¬ decide (c ≠ '.') :=
    one_mul_le_starting (by simp)
  have hsplit : mantissa =
      grouped * maybe (oneOf "." * many Digit) + 1 * (oneOf "." * atLeastOne Digit) := by
    rw [mantissa, maybe, mul_add, mul_one, one_mul, mul_assoc, add_comm grouped, add_right_comm]
  have hleft : cs ∈ grouped * maybe (oneOf "." * many Digit) ↔
      cs.takeWhile (· ≠ '.') ∈ grouped ∧ cs.dropWhile (· ≠ '.') ∈ maybe (oneOf "." * many Digit) :=
    mem_mul_iff_takeWhile hgrouped (maybe_mono hpoint)
  have hright : cs ∈ 1 * (oneOf "." * atLeastOne Digit) ↔
      cs.takeWhile (· ≠ '.') ∈ (1 : Language Char) ∧
        cs.dropWhile (· ≠ '.') ∈ oneOf "." * atLeastOne Digit :=
    mem_mul_iff_takeWhile unit_le_many (hpoint.trans le_maybe)
  rw [hsplit, Language.mem_add, hleft, hright, isMantissa, ← isGrouped_iff, Language.mem_one]
  rcases hdrop : cs.dropWhile (· ≠ '.') with _ | ⟨point, fraction⟩
  · rw [and_iff_left nil_mem_maybe, or_iff_left fun h ↦ nil_notMem_one_mul h.2]
  · have hmark : point ∈ ".".toList := by simpa using of_dropWhile_eq_cons hdrop
    rw [cons_mem_maybe, oneOf, cons_mem_one_mul, cons_mem_one_mul, and_iff_right hmark,
      and_iff_right hmark, ← isDigits_iff, Bool.or_eq_true, Bool.and_eq_true, Bool.and_eq_true,
      List.isEmpty_iff, List.all_eq_true]
    rfl

/-- The characters of mantissas are digits, separators and points. -/
theorem mantissa_le_many {p : Char → Prop} (hdigit : ∀ c, Digit c → p c)
    (hmark : ∀ c ∈ "_.".toList, p c) : mantissa ≤ many p := by
  have hgrouped : grouped ≤ many p := grouped_le_many hdigit (hmark '_' (by simp))
  have hpoint : oneOf "." ≤ many p := one_le_many fun c hc ↦ hmark c (List.mem_cons_of_mem _ hc)
  exact add_le (add_le (mul_le_many (mul_le_many hgrouped hpoint) (many_mono hdigit))
    (mul_le_many hpoint (atLeastOne_le_many hdigit))) hgrouped

/-- Mantissas begin with a digit or a point. -/
theorem mantissa_le_starting : mantissa ≤ starting fun c ↦ Digit c ∨ c = '.' := by
  have hgrouped {m : Language Char} : grouped * m ≤ starting fun c ↦ Digit c ∨ c = '.' :=
    mul_le_starting (one_mul_le_starting fun c ↦ Or.inl)
  refine add_le (add_le ?_ (one_mul_le_starting fun c hc ↦ Or.inr (List.mem_singleton.mp hc))) ?_
  · rw [mul_assoc]
    exact hgrouped
  · exact one_mul_le_starting fun c ↦ Or.inl

/-- The characters of exponents are digits, their letter and signs. -/
theorem exponent_le_many {p : Char → Prop} (hdigit : ∀ c, Digit c → p c)
    (hmark : ∀ c ∈ "eE+-".toList, p c) : exponent ≤ many p := by
  have hpart {chars : String} (h : chars.toList ⊆ "eE+-".toList) : oneOf chars ≤ many p :=
    one_le_many fun c hc ↦ hmark c (h hc)
  exact mul_le_many (mul_le_many (hpart (by simp)) (maybe_le_many (hpart (by simp))))
    (atLeastOne_le_many hdigit)

theorem isExponentMark_iff {c : Char} : isExponentMark c ↔ c ∈ "eE".toList := by
  simp [isExponentMark]

theorem isScaled_iff : isScaled cs ↔ cs ∈ mantissa * maybe exponent := by
  have hnot {c : Char} (hc : c ∉ "eE".toList) : (!isExponentMark c) = true := by
    rwa [Bool.not_eq_true', ← Bool.not_eq_true, isExponentMark_iff]
  have hmantissa : mantissa ≤ many fun c ↦ !isExponentMark c :=
    mantissa_le_many (fun c hc ↦ hnot (digit_notMem hc (by simp))) (by simp [isExponentMark])
  have hexponent : exponent ≤ starting fun c ↦ ¬ !isExponentMark c := by
    rw [exponent, mul_assoc]
    exact one_mul_le_starting fun c hc ↦ by simp [isExponentMark_iff.mpr hc]
  rw [mem_mul_iff_takeWhile hmantissa (maybe_mono hexponent), isScaled, ← isMantissa_iff]
  rcases hdrop : cs.dropWhile (!isExponentMark ·) with _ | ⟨mark, power⟩
  · rw [and_iff_left nil_mem_maybe]
  · have hmark : mark ∈ "eE".toList := by
      simpa [isExponentMark_iff] using of_dropWhile_eq_cons hdrop
    have hdigits : atLeastOne Digit ≤ starting (· ∉ "+-".toList) :=
      one_mul_le_starting fun c hc ↦ digit_notMem hc (by simp)
    rw [cons_mem_maybe, exponent, mul_assoc, oneOf, cons_mem_one_mul, and_iff_right hmark,
      ← dropSign_iff hdigits, ← isDigits_iff, Bool.and_eq_true]

theorem isNumber_iff : isNumber cs ↔ cs ∈ floating := by
  have hscaled : mantissa * maybe exponent ≤ many (· ∉ "fFdD".toList) :=
    mul_le_many (mantissa_le_many (fun c hc ↦ digit_notMem hc (by simp)) (by simp))
      (maybe_le_many (exponent_le_many (fun c hc ↦ digit_notMem hc (by simp)) (by simp)))
  have hhead : mantissa * maybe exponent * maybe (oneOf "fFdD") ≤ starting (· ∉ "+-".toList) := by
    refine mul_le_starting (mul_le_starting (mantissa_le_starting.trans (starting_mono ?_)))
    rintro c (hc | rfl)
    · exact digit_notMem hc (by simp)
    · simp
  have hsuffix (c : Char) : "fFdD".toList.contains c ↔ c ∈ "fFdD".toList := List.contains_iff_mem
  rw [isNumber, isScaled_iff, dropSuffix_iff hsuffix hscaled, dropSign_iff hhead, floating,
    mul_assoc sign, mul_assoc sign]

/-! ### Texts between quotes -/

theorem mem_tripled {quote : Char} :
    cs ∈ ({[quote, quote, quote]} * ⊤ * {[quote, quote, quote]} : Language Char) ↔
      ∃ content, cs = [quote, quote, quote] ++ content ++ [quote, quote, quote] := by
  constructor
  · rintro ⟨_, ⟨_, rfl, content, -, rfl⟩, _, rfl, rfl⟩
    exact ⟨content, rfl⟩
  · rintro ⟨content, rfl⟩
    exact Language.append_mem_mul (Language.append_mem_mul rfl trivial) rfl

/-- A word with three quotes at either end has a content if they do not overlap. -/
theorem exists_content_iff {three : List Char} :
    three <+: cs ∧ three <:+ cs ∧ 2 * three.length ≤ cs.length ↔
      ∃ content, cs = three ++ content ++ three := by
  constructor
  · rintro ⟨⟨rest, rfl⟩, hsuffix, hlength⟩
    have hle : three.length ≤ rest.length := by
      rw [List.length_append] at hlength
      omega
    obtain ⟨content, rfl⟩ :=
      List.suffix_of_suffix_length_le hsuffix (List.suffix_append three rest) hle
    exact ⟨content, (List.append_assoc ..).symm⟩
  · rintro ⟨content, rfl⟩
    refine ⟨⟨content ++ three, (List.append_assoc ..).symm⟩, List.suffix_append _ _, ?_⟩
    simp only [List.length_append]
    omega

theorem isEnclosed_iff {quote : Char} : isEnclosed quote cs ↔ cs ∈ quoted quote := by
  rw [isEnclosed, quoted, Language.mem_add, mem_tripled, ← exists_content_iff, Bool.or_eq_true]
  refine or_congr ?_ ?_
  · rw [Bool.and_eq_true, Bool.and_eq_true, List.isPrefixOf_iff_prefix, List.isSuffixOf_iff_suffix,
      decide_eq_true_eq, and_assoc]
    rfl
  · cases cs with
    | nil => simp [mul_assoc, nil_notMem_one_mul]
    | cons c cs =>
      rw [mul_assoc, cons_mem_one_mul]
      rcases List.eq_nil_or_concat' cs with rfl | ⟨content, d, rfl⟩
      · simp [mem_mul_one]
      · have hlast : (c :: (content ++ [d])).getLast? = some d := by
          rw [← List.cons_append, List.getLast?_concat]
        have hcontent : (∀ x ∈ content, x ≠ quote) ↔ quote ∉ content :=
          ⟨fun h hquote ↦ h quote hquote rfl, fun h _ hx heq ↦ h (heq ▸ hx)⟩
        rw [concat_mem_mul_one, mem_many, hcontent, hlast, List.drop_one, List.tail_cons,
          List.dropLast_concat]
        simp [and_assoc, and_comm]

/-- Quoted texts begin with a quote. -/
theorem quotes_le_starting : quoted '"' + quoted '\'' ≤ starting (· ∈ ['"', '\'']) := by
  have hquoted {quote : Char} (h : quote ∈ ['"', '\'']) :
      quoted quote ≤ starting (· ∈ ['"', '\'']) := by
    rw [quoted, mul_assoc, mul_assoc]
    refine add_le ?_ (one_mul_le_starting fun c hc ↦ hc ▸ h)
    exact mul_le_starting (by rintro _ rfl; exact cons_mem_one_mul.mpr ⟨h, trivial⟩)
  exact add_le (hquoted (by decide)) (hquoted (by decide))

theorem isString_iff : isString cs ↔ cs ∈ string := by
  have hmarks : marks ≤ many fun c ↦ isQuoteMark c :=
    fun _ hcs c hc ↦ List.contains_iff_mem.mpr (hcs.2 c hc)
  have hcut : quoted '"' + quoted '\'' ≤ starting fun c ↦ ¬ isQuoteMark c :=
    quotes_le_starting.trans (starting_mono (by simp [isQuoteMark]))
  have htake : cs.takeWhile isQuoteMark ∈ marks ↔ (cs.takeWhile isQuoteMark).length ≤ 2 :=
    and_iff_left fun c hc ↦ List.contains_iff_mem.mp (List.mem_takeWhile_imp hc)
  rw [string, mem_mul_iff_takeWhile hmarks (hcut.trans le_maybe), htake, Language.mem_add,
    ← isEnclosed_iff, ← isEnclosed_iff, isString, Bool.and_eq_true, Bool.or_eq_true,
    decide_eq_true_eq]

/-! ### Truth values -/

theorem toLower_eq_iff {c d : Char} (hd : d.isLower) : c.toLower = d ↔ c = d ∨ c = d.toUpper := by
  constructor
  · rintro rfl
    by_cases hc : c.isUpper
    · right
      rw [Char.toUpper_toLower_eq_toUpper,
        Char.toUpper_eq_of_not_isLower (Char.not_isLower_of_isUpper hc)]
    · exact Or.inl (Char.toLower_eq_of_not_isUpper hc).symm
  · have hlower : d.toLower = d := Char.toLower_eq_of_not_isUpper (Char.not_isUpper_of_isLower hd)
    rintro (rfl | rfl)
    · exact hlower
    · rw [Char.toLower_toUpper_eq_toLower, hlower]

theorem mem_anyCase {word : String} (h : ∀ c ∈ word.toList, c.isLower) :
    cs ∈ anyCase word ↔ cs.map Char.toLower = word.toList := by
  rw [anyCase]
  change List.Forall₂ (fun c d ↦ c = d ∨ c = d.toUpper) cs word.toList ↔ _
  generalize word.toList = ds at h
  induction ds generalizing cs with
  | nil => rw [List.forall₂_nil_right_iff, List.map_eq_nil_iff]
  | cons d ds ih =>
    rw [List.forall_mem_cons] at h
    cases cs with
    | nil => simp
    | cons c cs =>
      rw [List.forall₂_cons, List.map_cons, List.cons.injEq, ih h.2, toLower_eq_iff h.1]

theorem isBoolean_iff : isBoolean cs ↔ cs ∈ boolean := by
  rw [boolean, Language.mem_add, mem_anyCase (by simp), mem_anyCase (by simp), isBoolean,
    Bool.or_eq_true, decide_eq_true_iff, decide_eq_true_iff]

/-! ### Types -/

theorem boolean_le_many : boolean ≤ many fun c ↦ c.isAlpha := by
  have hword {word : String} (h : ∀ c ∈ word.toList, c.isLower) :
      anyCase word ≤ many fun c ↦ c.isAlpha := by
    intro cs hcs c hc
    have hmem : c.toLower ∈ word.toList :=
      (mem_anyCase h).mp hcs ▸ List.mem_map_of_mem hc
    exact Char.isLower_toLower_eq_isAlpha c ▸ h _ hmem
  exact add_le (hword (by simp)) (hword (by simp))

/-- The characters of numbers are no quotes. -/
theorem number_le_many : integer + floating ≤ many (· ∉ ['"', '\'']) := by
  have hdigit (c : Char) (hc : Digit c) : c ∉ ['"', '\''] :=
    digit_notMem hc (by simp)
  have hchars {chars : String} (h : ∀ c ∈ chars.toList, c ∉ ['"', '\'']) :
      maybe (oneOf chars) ≤ many (· ∉ ['"', '\'']) :=
    maybe_le_many (one_le_many h)
  have hmagnitude : magnitude ≤ many (· ∉ ['"', '\'']) := magnitude_le_many hdigit (by simp)
  have hscaled : mantissa * maybe exponent ≤ many (· ∉ ['"', '\'']) :=
    mul_le_many (mantissa_le_many hdigit (by simp))
      (maybe_le_many (exponent_le_many hdigit (by simp)))
  rw [integer, floating, mul_assoc sign mantissa]
  exact add_le (mul_le_many (mul_le_many (hchars (by simp)) hmagnitude) (hchars (by simp)))
    (mul_le_many (mul_le_many (hchars (by simp)) hscaled) (hchars (by simp)))

theorem disjoint_boolean_string : Disjoint boolean string :=
  (disjoint_many_mul (quotes_le_starting.trans (starting_mono (by simp)))).mono_left boolean_le_many

theorem disjoint_string_number : Disjoint string (integer + floating) :=
  ((disjoint_many_mul (quotes_le_starting.trans (starting_mono (by simp)))).mono_left
    number_le_many).symm

theorem disjoint_boolean_number : Disjoint boolean (integer + floating) := by
  have hinteger : magnitude * maybe (oneOf "lL") ≤ starting fun c ↦ ¬ c.isAlpha :=
    mul_le_starting (magnitude_le_starting.trans
      (starting_mono fun c hc ↦ Text.not_isAlpha_of_isDecimalDigit hc))
  have hfloating : mantissa * maybe exponent * maybe (oneOf "fFdD") ≤
      starting fun c ↦ ¬ c.isAlpha := by
    refine mul_le_starting (mul_le_starting (mantissa_le_starting.trans (starting_mono ?_)))
    rintro c (hc | rfl)
    · exact Text.not_isAlpha_of_isDecimalDigit hc
    · decide
  rw [integer, floating, mul_assoc sign, mul_assoc sign, mul_assoc sign]
  exact ((disjoint_many_mul hinteger).sup_right (disjoint_many_mul hfloating)).mono_left
    boolean_le_many

/-- A text shows the type that is read off its characters. -/
theorem mem_showing_typeOfChars? : cs ∈ showing (typeOfChars? cs) := by
  unfold typeOfChars?
  split_ifs with hboolean hstring hinteger hnumber
  · exact isBoolean_iff.mp hboolean
  · exact isString_iff.mp hstring
  · exact isInteger_iff.mp hinteger
  · exact ⟨isNumber_iff.mp hnumber, fun h ↦ hinteger (isInteger_iff.mpr h)⟩
  · rintro (((h | h) | h) | h)
    · exact hboolean (isBoolean_iff.mpr h)
    · exact hstring (isString_iff.mpr h)
    · exact hinteger (isInteger_iff.mpr h)
    · exact hnumber (isNumber_iff.mpr h)

/-- A text shows no other type. -/
theorem typeOfChars?_of_mem_showing {type : Option LiteralType} (h : cs ∈ showing type) :
    typeOfChars? cs = type := by
  have hboolean (h : cs ∈ string + (integer + floating)) : ¬ isBoolean cs := fun hboolean ↦
    Set.disjoint_left.mp (disjoint_boolean_string.sup_right disjoint_boolean_number)
      (isBoolean_iff.mp hboolean) h
  have hstring (h : cs ∈ integer + floating) : ¬ isString cs := fun hstring ↦
    Set.disjoint_left.mp disjoint_string_number (isString_iff.mp hstring) h
  rw [typeOfChars?]
  rcases type with _ | _ | _ | _ | _
  · have hnone : ¬ (((cs ∈ boolean ∨ cs ∈ string) ∨ cs ∈ integer) ∨ cs ∈ floating) := h
    rw [← isBoolean_iff, ← isString_iff, ← isInteger_iff, ← isNumber_iff, not_or, not_or,
      not_or] at hnone
    obtain ⟨⟨⟨hboolean, hstring⟩, hinteger⟩, hnumber⟩ := hnone
    rw [if_neg hboolean, if_neg hstring, if_neg hinteger, if_neg hnumber]
  · rw [if_neg (hboolean (Or.inr (Or.inl h))), if_neg (hstring (Or.inl h)),
      if_pos (isInteger_iff.mpr h)]
  · obtain ⟨hfloating, hinteger⟩ := h
    rw [if_neg (hboolean (Or.inr (Or.inr hfloating))), if_neg (hstring (Or.inr hfloating)),
      if_neg (mt isInteger_iff.mp hinteger), if_pos (isNumber_iff.mpr hfloating)]
  · rw [if_pos (isBoolean_iff.mpr h)]
  · rw [if_neg (hboolean (Or.inl h)), if_pos (isString_iff.mpr h)]

theorem typeOfChars?_eq_iff {type : Option LiteralType} :
    typeOfChars? cs = type ↔ cs ∈ showing type :=
  ⟨fun h ↦ h ▸ mem_showing_typeOfChars?, typeOfChars?_of_mem_showing⟩

/-! ### Blanks around a literal -/

/-- A text is its inner part with blanks around, and the inner part neither begins nor ends with a
blank. -/
structure Strips (text inner : List Char) : Prop where
  split : ∃ front back, text = front ++ inner ++ back ∧ (∀ c ∈ front, Text.isBlank c) ∧
    ∀ c ∈ back, Text.isBlank c
  head_not_blank : ∀ c ∈ inner.head?, ¬ Text.isBlank c
  last_not_blank : ∀ c ∈ inner.getLast?, ¬ Text.isBlank c

theorem strips_trimList : Strips cs (Text.trimList Text.isBlank cs) := by
  have hrest : Text.trimList Text.isBlank cs ++
      (cs.dropWhile Text.isBlank).rtakeWhile Text.isBlank = cs.dropWhile Text.isBlank :=
    List.rdropWhile_append_rtakeWhile
  constructor
  · refine ⟨cs.takeWhile Text.isBlank, (cs.dropWhile Text.isBlank).rtakeWhile Text.isBlank, ?_,
      fun c ↦ List.mem_takeWhile_imp, fun c ↦ List.mem_rtakeWhile_imp⟩
    rw [List.append_assoc, hrest, List.takeWhile_append_dropWhile]
  · intro c hc
    obtain ⟨inner, hinner⟩ := List.head?_eq_some_iff.mp hc
    rw [hinner] at hrest
    exact of_dropWhile_eq_cons hrest.symm
  · intro c hc
    obtain ⟨hne, rfl⟩ := List.mem_getLast?_eq_getLast hc
    exact List.rdropWhile_last_not _ _ hne

/-! ### The type of a text -/

/-- The type of a text is read off exactly by the grammar. -/
theorem recognizes_grammar (text : String) :
    let inner := Text.trimList Text.isBlank text.toList
    let type := (typeOf? text).map LiteralType.name
    Strips text.toList inner ∧
      (type = some "boolean" ↔ inner ∈ boolean) ∧
      (type = some "string" ↔ inner ∈ string) ∧
      (type = some "integer" ↔ inner ∈ integer) ∧
      (type = some "floating" ↔ inner ∈ floating ∧ inner ∉ integer) ∧
      (type = none ↔ inner ∉ boolean + string + integer + floating) ∧
      Disjoint boolean string ∧ Disjoint (boolean + string) (integer + floating) := by
  intro inner type
  have hshow (t : Option LiteralType) : type = t.map LiteralType.name ↔ inner ∈ showing t := by
    rw [(Option.map_injective LiteralType.name_injective).eq_iff]
    exact typeOfChars?_eq_iff
  exact ⟨strips_trimList, hshow (some .boolean), hshow (some .string), hshow (some .integer),
    hshow (some .floating), hshow none, disjoint_boolean_string,
    disjoint_boolean_number.sup_left disjoint_string_number⟩

/-- A final `f` is a digit or a suffix, depending on the base. -/
example : typeOf? " 0x1f " = some .integer ∧ typeOf? "1.e2f" = some .floating := by
  decide

end NearClone.Literal
