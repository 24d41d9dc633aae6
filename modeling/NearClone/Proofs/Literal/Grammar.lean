import NearClone.Literal
import Mathlib

/-!
# The grammar of literals

The spellings of booleans, strings and numbers, as languages over characters. A language is built
from single characters by `+`, `*`, `maybe` and `many`, the words whose characters all belong to
one class. The languages `showing t` are about all texts: each text shows one type or none.

Two inclusions say where a reader may cut a word of a product `l * m`. If all characters of `l`
belong to a class and no word of `m` begins in it, then the first factor of a word is its longest
beginning in the class (`mem_mul_iff_takeWhile`).
-/

set_option autoImplicit false
set_option relaxedAutoImplicit false

namespace NearClone.Literal.Grammar

/-! ### Languages of characters -/

/-- A single character of a class. -/
def one (p : Char → Prop) : Language Char := {cs | ∃ c, p c ∧ cs = [c]}

/-- A single character out of a text. -/
def oneOf (chars : String) : Language Char := one (· ∈ chars.toList)

/-- Any number of characters of a class. -/
def many (p : Char → Prop) : Language Char := {cs | ∀ c ∈ cs, p c}

/-- A character of a class, then any number of them. -/
def atLeastOne (p : Char → Prop) : Language Char := one p * many p

/-- A word of a language, or nothing. -/
def maybe (l : Language Char) : Language Char := 1 + l

/-- The words that begin with a character of a class. -/
def starting (p : Char → Prop) : Language Char := one p * ⊤

/-- A word in any mixture of lower and upper case. -/
def anyCase (word : String) : Language Char :=
  {cs | List.Forall₂ (fun c d ↦ c = d ∨ c = d.toUpper) cs word.toList}

/-! ### Literals -/

/-- A decimal digit of any script. -/
def Digit (c : Char) : Prop := Text.isDecimalDigit c

/-- The words for truth values. -/
def boolean : Language Char := anyCase "true" + anyCase "false"

/-- At most two letters that say how to read a quoted text. -/
def marks : Language Char := {cs | cs.length ≤ 2 ∧ cs ∈ many (· ∈ "rRbBuUfF".toList)}

/-- Any content between three quotes, or a content without the quote between two. -/
def quoted (quote : Char) : Language Char :=
  {[quote, quote, quote]} * ⊤ * {[quote, quote, quote]}
    + one (· = quote) * many (· ≠ quote) * one (· = quote)

/-- A quoted text with its marks. -/
def string : Language Char := marks * (quoted '"' + quoted '\'')

/-- A sign, or none. -/
def sign : Language Char := maybe (oneOf "+-")

/-- A decimal digit, then digits and separators. -/
def grouped : Language Char := one Digit * many fun c ↦ Digit c ∨ c = '_'

/-- A zero, a letter that tells the base, and digits of that base. -/
def based (base digits : String) : Language Char :=
  oneOf "0" * oneOf base * atLeastOne (· ∈ digits.toList)

/-- A hexadecimal, binary or decimal integer without sign. -/
def magnitude : Language Char :=
  based "xX" "0123456789abcdefABCDEF_" + based "bB" "01_" + grouped

/-- An integer with its sign and suffix. -/
def integer : Language Char := sign * magnitude * maybe (oneOf "lL")

/-- Digits around a point, one side of which may lack, or digits alone. -/
def mantissa : Language Char :=
  grouped * oneOf "." * many Digit + oneOf "." * atLeastOne Digit + grouped

/-- The power of ten by which a mantissa is scaled. -/
def exponent : Language Char := oneOf "eE" * sign * atLeastOne Digit

/-- A number with its sign, exponent and suffix. -/
def floating : Language Char := sign * mantissa * maybe exponent * maybe (oneOf "fFdD")

/-- The texts that show a type, or none. -/
def showing : Option LiteralType → Language Char
  | some .boolean => boolean
  | some .string => string
  | some .integer => integer
  | some .floating => floating - integer
  | none => (boolean + string + integer + floating)ᶜ

/-! ### Words of a product -/

variable {p q : Char → Prop} {l m : Language Char} {cs : List Char}

theorem mem_many : cs ∈ many p ↔ ∀ c ∈ cs, p c :=
  Iff.rfl

theorem mem_one_mul : cs ∈ one p * l ↔ ∃ c rest, cs = c :: rest ∧ p c ∧ rest ∈ l := by
  rw [Language.mem_mul]
  constructor
  · rintro ⟨_, ⟨c, hc, rfl⟩, rest, hrest, rfl⟩
    exact ⟨c, rest, rfl, hc, hrest⟩
  · rintro ⟨c, rest, rfl, hc, hrest⟩
    exact ⟨[c], ⟨c, hc, rfl⟩, rest, hrest, rfl⟩

theorem cons_mem_one_mul {c : Char} : c :: cs ∈ one p * l ↔ p c ∧ cs ∈ l := by
  rw [mem_one_mul]
  constructor
  · rintro ⟨d, rest, heq, hd, hrest⟩
    obtain ⟨rfl, rfl⟩ := List.cons.inj heq
    exact ⟨hd, hrest⟩
  · rintro ⟨hc, hcs⟩
    exact ⟨c, cs, rfl, hc, hcs⟩

theorem nil_notMem_one_mul : [] ∉ one p * l := by
  rw [mem_one_mul]
  rintro ⟨c, rest, heq, -⟩
  exact List.cons_ne_nil c rest heq.symm

theorem mem_mul_one : cs ∈ l * one p ↔ ∃ front c, cs = front ++ [c] ∧ front ∈ l ∧ p c := by
  rw [Language.mem_mul]
  constructor
  · rintro ⟨front, hfront, _, ⟨c, hc, rfl⟩, rfl⟩
    exact ⟨front, c, rfl, hfront, hc⟩
  · rintro ⟨front, c, rfl, hfront, hc⟩
    exact ⟨front, hfront, [c], ⟨c, hc, rfl⟩, rfl⟩

theorem concat_mem_mul_one {c : Char} : cs ++ [c] ∈ l * one p ↔ cs ∈ l ∧ p c := by
  rw [mem_mul_one]
  constructor
  · rintro ⟨front, d, heq, hfront, hd⟩
    obtain ⟨rfl, hcd⟩ := List.append_inj' heq rfl
    obtain rfl := List.singleton_inj.mp hcd
    exact ⟨hfront, hd⟩
  · rintro ⟨hcs, hc⟩
    exact ⟨cs, c, rfl, hcs, hc⟩

theorem mem_atLeastOne : cs ∈ atLeastOne p ↔ cs ≠ [] ∧ ∀ c ∈ cs, p c := by
  cases cs with
  | nil => exact iff_of_false nil_notMem_one_mul fun h ↦ h.1 rfl
  | cons c cs =>
    rw [atLeastOne, cons_mem_one_mul, mem_many, List.forall_mem_cons]
    exact ⟨fun h ↦ ⟨List.cons_ne_nil c cs, h⟩, fun h ↦ h.2⟩

theorem mem_maybe_mul : cs ∈ maybe l * m ↔ cs ∈ m ∨ cs ∈ l * m := by
  rw [maybe, add_mul, one_mul, Language.mem_add]

theorem nil_mem_maybe : [] ∈ maybe l :=
  Or.inl rfl

theorem cons_mem_maybe {c : Char} : c :: cs ∈ maybe l ↔ c :: cs ∈ l :=
  or_iff_right (List.cons_ne_nil c cs)

theorem mem_mul_maybe : cs ∈ l * maybe m ↔ cs ∈ l ∨ cs ∈ l * m := by
  rw [maybe, mul_add, mul_one, Language.mem_add]

/-! ### Inclusions -/

theorem one_le_many (h : ∀ c, p c → q c) : one p ≤ many q := by
  rintro _ ⟨c, hc, rfl⟩
  exact List.forall_mem_singleton.mpr (h c hc)

theorem many_mono (h : ∀ c, p c → q c) : many p ≤ many q :=
  fun _ hcs c hc ↦ h c (hcs c hc)

theorem mul_le_many (hl : l ≤ many p) (hm : m ≤ many p) : l * m ≤ many p := by
  rintro _ ⟨front, hfront, back, hback, rfl⟩
  exact List.forall_mem_append.mpr ⟨hl hfront, hm hback⟩

theorem atLeastOne_le_many (h : ∀ c, p c → q c) : atLeastOne p ≤ many q :=
  mul_le_many (one_le_many h) (many_mono h)

theorem unit_le_many : 1 ≤ many p := by
  rintro _ rfl
  exact List.forall_mem_nil p

theorem maybe_le_many (h : l ≤ many p) : maybe l ≤ many p :=
  add_le unit_le_many h

theorem le_maybe : l ≤ maybe l :=
  le_sup_right

theorem maybe_mono (h : l ≤ m) : maybe l ≤ maybe m :=
  add_le_add_right h 1

theorem one_mul_le_starting (h : ∀ c, p c → q c) : one p * l ≤ starting q := by
  intro cs hcs
  obtain ⟨c, rest, rfl, hc, -⟩ := mem_one_mul.mp hcs
  exact cons_mem_one_mul.mpr ⟨h c hc, trivial⟩

theorem starting_mono (h : ∀ c, p c → q c) : starting p ≤ starting q :=
  one_mul_le_starting h

theorem mul_le_starting (h : l ≤ starting p) : l * m ≤ starting p := by
  rintro _ ⟨front, hfront, back, -, rfl⟩
  obtain ⟨c, rest, rfl, hc, -⟩ := mem_one_mul.mp (h hfront)
  exact cons_mem_one_mul.mpr ⟨hc, trivial⟩

/-! ### Cuts -/

/-- The first character after the longest beginning in a class is outside of it. -/
theorem of_dropWhile_eq_cons {c : Char} {rest : List Char} {r : Char → Bool}
    (h : cs.dropWhile r = c :: rest) : ¬ r c := by
  have hhead := List.head?_dropWhile_not r cs
  rw [h] at hhead
  simpa using hhead

/-- In a word of a product, the first factor is the longest beginning in a class to which all its
characters belong and in which the second factor does not begin. -/
theorem mem_mul_iff_takeWhile {r : Char → Bool} (hl : l ≤ many fun c ↦ r c)
    (hm : m ≤ maybe (starting fun c ↦ ¬ r c)) :
    cs ∈ l * m ↔ cs.takeWhile r ∈ l ∧ cs.dropWhile r ∈ m := by
  constructor
  · rintro ⟨front, hfront, back, hback, rfl⟩
    have hcut : back.takeWhile r = [] ∧ back.dropWhile r = back := by
      rcases hm hback with rfl | hstart
      · exact ⟨rfl, rfl⟩
      · obtain ⟨c, rest, rfl, hc, -⟩ := mem_one_mul.mp hstart
        exact ⟨List.takeWhile_cons_of_neg hc, List.dropWhile_cons_of_neg hc⟩
    rw [List.takeWhile_append_of_pos (hl hfront), List.dropWhile_append_of_pos (hl hfront),
      hcut.1, hcut.2, List.append_nil]
    exact ⟨hfront, hback⟩
  · rintro ⟨htake, hdrop⟩
    exact Language.mem_mul.mpr ⟨_, htake, _, hdrop, List.takeWhile_append_dropWhile⟩

/-- A word whose characters belong to a class is no product with a factor that begins outside. -/
theorem disjoint_many_mul (hm : m ≤ starting fun c ↦ ¬ p c) : Disjoint (many p) (l * m) := by
  refine Set.disjoint_left.mpr ?_
  rintro _ hcs ⟨front, -, back, hback, rfl⟩
  obtain ⟨c, rest, rfl, hc, -⟩ := mem_one_mul.mp (hm hback)
  exact hc (hcs c (List.mem_append_right front List.mem_cons_self))

end NearClone.Literal.Grammar
