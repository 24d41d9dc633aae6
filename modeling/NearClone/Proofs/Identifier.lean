import NearClone.Identifier
import Mathlib

/-!
# The words of an identifier

The words of a name are found in its simple part, which stands after the last qualifier and before
the parameters (`IsSimple`). This part is divided into pieces, each of them a word or a single
character that belongs to none. Between two neighbours of which each belongs to a word, a piece ends
exactly where a word ends by the look of the two and of the character after them (`Boundary`), so
that nothing is lost or taken twice (`cuts_piecesOf`). The words are the pieces of word characters,
in lower case (`words_divide_simpleName`). Put together in camel case, words are a name again as
long as the first of them has letters (`isName_camelCase`).
-/

set_option autoImplicit false
set_option relaxedAutoImplicit false

namespace NearClone.Identifier

/-! ### Divisions of a text -/

/-- The part of a name between its qualifiers and its parameters. -/
structure IsSimple (name simple : List Char) : Prop where
  split : ∃ owner parameters, name = owner ++ simple ++ parameters ∧ '(' ∉ owner ++ simple ∧
    (∀ c ∈ owner.getLast?, c = '#' ∨ c = '.') ∧ ∀ c ∈ parameters.head?, c = '('
  hash_notMem : '#' ∉ simple
  dot_notMem : '.' ∉ simple

/-- A word ends between two neighbours with the given characters after them. -/
@[mk_iff]
inductive Boundary (c d : Char) (back : List Char) : Prop
  | letter_digit (hc : c.isAlpha) (hd : Text.isDecimalDigit d)
  | digit_letter (hc : Text.isDecimalDigit c) (hd : d.isAlpha)
  | lower_upper (hc : c.isLower) (hd : d.isUpper)
  /-- The last capital of a run belongs to the lower-case letters after it. -/
  | upper_upper (hc : c.isUpper) (hd : d.isUpper) (hback : ∃ e ∈ back.head?, e.isLower)

/-- Some letters, some digits, or a single character that belongs to no word. -/
inductive Piece : List Char → Prop
  | letters {cs : List Char} (hne : cs ≠ []) (h : ∀ c ∈ cs, c.isAlpha) : Piece cs
  | digits {cs : List Char} (hne : cs ≠ []) (h : ∀ c ∈ cs, Text.isDecimalDigit c) : Piece cs
  | other {c : Char} (h : ¬ isWordChar c) : Piece [c]

/-- A piece ends after a beginning of the divided text. -/
def Ends (pieces : List (List Char)) (front : List Char) : Prop :=
  ∃ before, before <+: pieces ∧ before.flatten = front

/-- A text is divided into pieces, and between two word characters exactly at a boundary. -/
structure Cuts (text : List Char) (pieces : List (List Char)) : Prop where
  flatten_eq : pieces.flatten = text
  piece : ∀ piece ∈ pieces, Piece piece
  ends_iff : ∀ front c d back, text = front ++ c :: d :: back → isWordChar c → isWordChar d →
    (Ends pieces (front ++ [c]) ↔ Boundary c d back)

/-- The pieces of a text: its words and the single characters between them. -/
def piecesOf : List Char → List (List Char)
  | [] => []
  | c :: cs =>
    if joins c cs then (piecesOf cs).modifyHead (c :: ·) else [c] :: piecesOf cs

variable {c d : Char} {cs rest : List Char} {pieces : List (List Char)}

/-! ### Neighbours -/

theorem isWordChar_iff : isWordChar c ↔ c.isAlpha ∨ Text.isDecimalDigit c := by
  rw [isWordChar, Bool.or_eq_true, Char.isAlpha]

/-- A word character is of exactly one kind. -/
theorem kind_of_isWordChar (hc : isWordChar c) :
    c.isUpper ∧ ¬ c.isLower ∧ ¬ Text.isDecimalDigit c ∨
      ¬ c.isUpper ∧ c.isLower ∧ ¬ Text.isDecimalDigit c ∨
        ¬ c.isUpper ∧ ¬ c.isLower ∧ Text.isDecimalDigit c := by
  rcases isWordChar_iff.mp hc with halpha | hdigit
  · have hdigit : ¬ Text.isDecimalDigit c := fun h ↦ Text.not_isAlpha_of_isDecimalDigit h halpha
    rw [Char.isAlpha, Bool.or_eq_true] at halpha
    rcases halpha with hupper | hlower
    · exact Or.inl ⟨hupper, Char.not_isLower_of_isUpper hupper, hdigit⟩
    · exact Or.inr (Or.inl ⟨Char.not_isUpper_of_isLower hlower, hlower, hdigit⟩)
  · have halpha := Text.not_isAlpha_of_isDecimalDigit hdigit
    rw [Char.isAlpha, Bool.or_eq_true, not_or] at halpha
    exact Or.inr (Or.inr ⟨halpha.1, halpha.2, hdigit⟩)

/-- Two neighbours of one word are both letters or both digits. -/
theorem alike_of_joins (h : joins c (d :: rest)) :
    c.isAlpha ∧ d.isAlpha ∨ Text.isDecimalDigit c ∧ Text.isDecimalDigit d := by
  simp only [joins, Bool.or_eq_true, Bool.and_eq_true] at h
  simp only [Char.isAlpha, Bool.or_eq_true]
  tauto

theorem isWordChar_of_joins (h : joins c (d :: rest)) : isWordChar c ∧ isWordChar d := by
  rw [isWordChar_iff, isWordChar_iff]
  rcases alike_of_joins h with ⟨hc, hd⟩ | ⟨hc, hd⟩
  · exact ⟨Or.inl hc, Or.inl hd⟩
  · exact ⟨Or.inr hc, Or.inr hd⟩

/-- Two word characters stay together exactly if no word ends between them. -/
theorem joins_iff_not_boundary (hc : isWordChar c) (hd : isWordChar d) :
    joins c (d :: rest) ↔ ¬ Boundary c d rest := by
  rw [boundary_iff]
  rcases kind_of_isWordChar hc with ⟨h1, h2, h3⟩ | ⟨h1, h2, h3⟩ | ⟨h1, h2, h3⟩ <;>
    rcases kind_of_isWordChar hd with ⟨h4, h5, h6⟩ | ⟨h4, h5, h6⟩ | ⟨h4, h5, h6⟩ <;>
      simp [joins, Char.isAlpha, Option.any_eq_false, *]

/-! ### Pieces -/

theorem exists_piecesOf_cons : ∃ tail others, piecesOf (c :: cs) = (c :: tail) :: others := by
  induction cs generalizing c with
  | nil => exact ⟨[], [], rfl⟩
  | cons d cs ih =>
    obtain ⟨tail, others, heq⟩ := @ih d
    rw [piecesOf]
    split
    · exact ⟨d :: tail, others, by rw [heq, List.modifyHead_cons]⟩
    · exact ⟨[], piecesOf (d :: cs), rfl⟩

/-- A text is divided by putting its first character before the pieces of the others, or into the
first of them. -/
theorem piecesOf_induction {motive : List Char → Prop} (nil : motive [])
    (single : ∀ c cs, ¬ joins c cs → piecesOf (c :: cs) = [c] :: piecesOf cs → motive cs →
      motive (c :: cs))
    (join : ∀ c d cs tail others, joins c (d :: cs) → piecesOf (d :: cs) = (d :: tail) :: others →
      piecesOf (c :: d :: cs) = (c :: d :: tail) :: others → motive (d :: cs) →
      motive (c :: d :: cs))
    (cs : List Char) : motive cs := by
  induction cs with
  | nil => exact nil
  | cons c cs ih =>
    by_cases h : joins c cs
    · cases cs with
      | nil => exact absurd h Bool.false_ne_true
      | cons d cs =>
        obtain ⟨tail, others, heq⟩ := @exists_piecesOf_cons d cs
        have hjoin : piecesOf (c :: d :: cs) = (c :: d :: tail) :: others := by
          rw [piecesOf, if_pos h, heq, List.modifyHead_cons]
        exact join c d cs tail others h heq hjoin ih
    · exact single c cs h (by rw [piecesOf, if_neg h]) ih

theorem flatten_piecesOf : (piecesOf cs).flatten = cs := by
  induction cs using piecesOf_induction with
  | nil => rfl
  | single c cs _ heq ih => rw [heq, List.flatten_cons, ih, List.singleton_append]
  | join c d cs tail others _ hrest heq ih =>
    rw [hrest] at ih
    rw [heq, List.flatten_cons, List.cons_append, ← List.flatten_cons, ih]

theorem Piece.letters_of {tail : List Char} (h : Piece (c :: tail)) (hc : c.isAlpha) :
    ∀ d ∈ c :: tail, d.isAlpha := by
  cases h with
  | letters _ h => exact h
  | digits _ h =>
    exact absurd hc (Text.not_isAlpha_of_isDecimalDigit (h c List.mem_cons_self))
  | other h => exact absurd (isWordChar_iff.mpr (Or.inl hc)) h

theorem Piece.digits_of {tail : List Char} (h : Piece (c :: tail)) (hc : Text.isDecimalDigit c) :
    ∀ d ∈ c :: tail, Text.isDecimalDigit d := by
  cases h with
  | letters _ h => exact absurd (h c List.mem_cons_self) (Text.not_isAlpha_of_isDecimalDigit hc)
  | digits _ h => exact h
  | other h => exact absurd (isWordChar_iff.mpr (Or.inr hc)) h

theorem Piece.all_isWordChar {tail : List Char} (h : Piece (c :: tail)) (hc : isWordChar c) :
    (c :: tail).all isWordChar := by
  rw [List.all_eq_true]
  rcases isWordChar_iff.mp hc with halpha | hdigit
  · exact fun d hd ↦ isWordChar_iff.mpr (Or.inl (h.letters_of halpha d hd))
  · exact fun d hd ↦ isWordChar_iff.mpr (Or.inr (h.digits_of hdigit d hd))

theorem piece_of_mem_piecesOf : ∀ piece ∈ piecesOf cs, Piece piece := by
  induction cs using piecesOf_induction with
  | nil => exact List.forall_mem_nil _
  | single c cs _ heq ih =>
    rw [heq, List.forall_mem_cons]
    refine ⟨?_, ih⟩
    by_cases hc : isWordChar c
    · rcases isWordChar_iff.mp hc with hc | hc
      · exact .letters (List.cons_ne_nil c []) (List.forall_mem_singleton.mpr hc)
      · exact .digits (List.cons_ne_nil c []) (List.forall_mem_singleton.mpr hc)
    · exact .other hc
  | join c d cs tail others h hrest heq ih =>
    rw [hrest, List.forall_mem_cons] at ih
    rw [heq, List.forall_mem_cons]
    refine ⟨?_, ih.2⟩
    rcases alike_of_joins h with ⟨hc, hd⟩ | ⟨hc, hd⟩
    · exact .letters (List.cons_ne_nil c _) (List.forall_mem_cons.mpr ⟨hc, ih.1.letters_of hd⟩)
    · exact .digits (List.cons_ne_nil c _) (List.forall_mem_cons.mpr ⟨hc, ih.1.digits_of hd⟩)

/-- The words are the pieces of word characters. -/
theorem wordsOf_eq_filter : wordsOf cs = (piecesOf cs).filter (·.all isWordChar) := by
  induction cs using piecesOf_induction with
  | nil => rfl
  | single c cs h heq ih =>
    rw [heq, List.filter_cons, ← ih, wordsOf]
    by_cases hc : isWordChar c
    · rw [if_pos hc, if_pos (by rw [List.all_cons, hc]; rfl)]
      cases wordsOf cs with
      | nil => rfl
      | cons word others => exact if_neg h
    · rw [if_neg hc, if_neg (by rw [List.all_cons, Bool.and_eq_true]; exact fun h ↦ hc h.1)]
  | join c d cs tail others h hrest heq ih =>
    have hmem {e : Char} {cs tail : List Char} {others : List (List Char)}
        (heq : piecesOf (e :: cs) = (e :: tail) :: others) : e :: tail ∈ piecesOf (e :: cs) :=
      heq ▸ List.mem_cons_self
    have hword := isWordChar_of_joins h
    have hshort := (piece_of_mem_piecesOf _ (hmem hrest)).all_isWordChar hword.2
    have hlong := (piece_of_mem_piecesOf _ (hmem heq)).all_isWordChar hword.1
    rw [hrest, List.filter_cons, if_pos hshort] at ih
    rw [heq, List.filter_cons, if_pos hlong, wordsOf, if_pos hword.1, ih]
    exact if_pos h

/-! ### Ends of pieces -/

theorem ends_nil : Ends pieces [] :=
  ⟨[], List.nil_prefix, rfl⟩

theorem ends_cons_iff {piece front : List Char} :
    Ends (piece :: pieces) front ↔
      front = [] ∨ ∃ back, front = piece ++ back ∧ Ends pieces back := by
  constructor
  · rintro ⟨before, hprefix, rfl⟩
    rcases List.prefix_cons_iff.mp hprefix with rfl | ⟨before, rfl, hprefix⟩
    · exact Or.inl rfl
    · exact Or.inr ⟨before.flatten, List.flatten_cons, before,
        (List.prefix_cons_inj piece).mp hprefix, rfl⟩
  · rintro (rfl | ⟨_, rfl, before, hprefix, rfl⟩)
    · exact ends_nil
    · exact ⟨piece :: before, (List.prefix_cons_inj piece).mpr hprefix, List.flatten_cons⟩

/-- Behind a first piece of one character, pieces end as they do without it. -/
theorem ends_singleton_cons_iff {front : List Char} :
    Ends ([c] :: pieces) (c :: front) ↔ Ends pieces front := by
  rw [ends_cons_iff, or_iff_right (List.cons_ne_nil c front)]
  simp only [List.singleton_append, List.cons.injEq, true_and, exists_eq_left']

/-- A character in front of a first piece does not change where pieces end. -/
theorem ends_cons_cons_iff {piece front : List Char} (h : front ≠ []) :
    Ends ((c :: piece) :: pieces) (c :: front) ↔ Ends (piece :: pieces) front := by
  rw [ends_cons_iff, ends_cons_iff, or_iff_right (List.cons_ne_nil c front), or_iff_right h]
  simp only [List.cons_append, List.cons.injEq, true_and]

theorem cuts_piecesOf : Cuts cs (piecesOf cs) := by
  refine ⟨flatten_piecesOf, piece_of_mem_piecesOf, ?_⟩
  induction cs using piecesOf_induction with
  | nil => exact fun front c d back h ↦ absurd h (by simp)
  | single e cs h heq ih =>
    intro front c d back hsplit hc hd
    rw [heq]
    cases front with
    | nil =>
      obtain ⟨rfl, rfl⟩ := List.cons.inj hsplit
      rw [joins_iff_not_boundary hc hd, not_not] at h
      rw [List.nil_append, ends_singleton_cons_iff]
      exact iff_of_true ends_nil h
    | cons b front =>
      obtain ⟨rfl, htail⟩ := List.cons.inj hsplit
      rw [List.cons_append, ends_singleton_cons_iff]
      exact ih front c d back htail hc hd
  | join e f cs tail others h hrest heq ih =>
    intro front c d back hsplit hc hd
    rw [heq]
    rw [hrest] at ih
    cases front with
    | nil =>
      obtain ⟨rfl, htail⟩ := List.cons.inj hsplit
      rw [htail, joins_iff_not_boundary hc hd] at h
      refine iff_of_false (fun hends ↦ ?_) h
      rcases ends_cons_iff.mp hends with hnil | ⟨back, hback, -⟩
      · exact List.cons_ne_nil e [] hnil
      · exact absurd hback (by simp)
    | cons b front =>
      obtain ⟨rfl, htail⟩ := List.cons.inj hsplit
      rw [List.cons_append, ends_cons_cons_iff (List.concat_ne_nil c front)]
      exact ih front c d back htail hc hd

/-! ### Words -/

/-- The word characters of a piece are all of it or none. -/
theorem Piece.filter_eq {piece : List Char} (h : Piece piece) :
    piece.filter isWordChar = if piece.all isWordChar then piece else [] := by
  split
  case isTrue hall => exact List.filter_eq_self.mpr (List.all_eq_true.mp hall)
  case isFalse hall =>
    cases h with
    | letters _ h =>
      exact absurd (List.all_eq_true.mpr fun c hc ↦ isWordChar_iff.mpr (Or.inl (h c hc))) hall
    | digits _ h =>
      exact absurd (List.all_eq_true.mpr fun c hc ↦ isWordChar_iff.mpr (Or.inr (h c hc))) hall
    | other h => rw [List.filter_cons, if_neg h, List.filter_nil]

/-- The words of a text hold its word characters. -/
theorem flatten_filter (h : ∀ piece ∈ pieces, Piece piece) :
    (pieces.filter (·.all isWordChar)).flatten = pieces.flatten.filter isWordChar := by
  induction pieces with
  | nil => rfl
  | cons piece pieces ih =>
    rw [List.forall_mem_cons] at h
    rw [List.flatten_cons, List.filter_append, h.1.filter_eq, ← ih h.2, List.filter_cons]
    split
    · exact List.flatten_cons
    · rfl

/-- Lower-case letters or digits, at least one of them. -/
structure IsWord (word : List Char) : Prop where
  ne_nil : word ≠ []
  uniform : (∀ c ∈ word, c.isLower) ∨ ∀ c ∈ word, Text.isDecimalDigit c

theorem isAlpha_of_isLower (h : c.isLower) : c.isAlpha := by
  rw [Char.isAlpha, h, Bool.or_true]

/-- Digits have no case. -/
theorem toLower_of_isDecimalDigit (h : Text.isDecimalDigit c) : c.toLower = c :=
  Char.toLower_eq_of_not_isUpper fun hupper ↦
    Text.not_isAlpha_of_isDecimalDigit h (by rw [Char.isAlpha, hupper, Bool.true_or])

theorem Piece.isWord_map_toLower {piece : List Char} (h : Piece piece)
    (hall : piece.all isWordChar) : IsWord (piece.map Char.toLower) := by
  cases h with
  | letters hne h =>
    refine ⟨mt List.map_eq_nil_iff.mp hne, Or.inl (List.forall_mem_map.mpr fun c hc ↦ ?_)⟩
    rw [Char.isLower_toLower_eq_isAlpha, h c hc]
  | digits hne h =>
    refine ⟨mt List.map_eq_nil_iff.mp hne, Or.inr (List.forall_mem_map.mpr fun c hc ↦ ?_)⟩
    rw [toLower_of_isDecimalDigit (h c hc), h c hc]
  | other h => exact absurd (List.all_eq_true.mp hall _ List.mem_cons_self) h

theorem IsWord.isWordChar_of_mem (h : IsWord cs) : ∀ c ∈ cs, isWordChar c := by
  rcases h.uniform with h | h
  · exact fun c hc ↦ isWordChar_iff.mpr (Or.inl (isAlpha_of_isLower (h c hc)))
  · exact fun c hc ↦ isWordChar_iff.mpr (Or.inr (h c hc))

/-- A word is in lower case. -/
theorem IsWord.map_toLower_eq (h : IsWord cs) : cs.map Char.toLower = cs := by
  refine (List.map_congr_left fun c hc ↦ ?_).trans (List.map_id cs)
  rcases h.uniform with h | h
  · exact Char.toLower_eq_of_not_isUpper (Char.not_isUpper_of_isLower (h c hc))
  · exact toLower_of_isDecimalDigit (h c hc)

/-- A word is not divided. -/
theorem IsWord.wordsOf_eq (h : IsWord cs) : wordsOf cs = [cs] := by
  induction cs with
  | nil => exact absurd rfl h.ne_nil
  | cons c cs ih =>
    have hc := h.isWordChar_of_mem c List.mem_cons_self
    cases cs with
    | nil => rw [wordsOf, if_pos hc]; rfl
    | cons d cs =>
      have hrest : IsWord (d :: cs) :=
        ⟨List.cons_ne_nil d cs, h.uniform.imp List.forall_mem_of_forall_mem_cons
          List.forall_mem_of_forall_mem_cons⟩
      have hjoins : joins c (d :: cs) := by
        rcases h.uniform with h | h <;>
          simp [joins, h c List.mem_cons_self, h d (List.mem_cons_of_mem c List.mem_cons_self)]
      rw [wordsOf, if_pos hc, ih hrest]
      exact if_pos hjoins

/-! ### Simple names -/

theorem not_isWordChar_mark (hmem : c ∈ ['(', '#', '.']) : ¬ isWordChar c := by
  have hmarks : ∀ d ∈ ['(', '#', '.'], ¬ d.isAlpha ∧ d.toNat < 48 := by simp [Char.isAlpha]
  obtain ⟨halpha, hrange⟩ := hmarks c hmem
  rw [isWordChar_iff, not_or]
  refine ⟨halpha, fun hdigit ↦ ?_⟩
  have hdigits := Text.toNat_of_isDecimalDigit hdigit
  omega

/-- A text of word characters has neither qualifiers nor parameters. -/
theorem simpleName_eq_self (h : ∀ c ∈ cs, isWordChar c) : simpleName cs = cs := by
  have hmark {c : Char} (hmem : c ∈ ['(', '#', '.']) : c ∉ cs := fun hc ↦
    not_isWordChar_mark hmem (h c hc)
  have hqualified : cs.takeWhile (· ≠ '(') = cs :=
    List.takeWhile_eq_self_iff.mpr fun c hc ↦
      decide_eq_true fun heq ↦ hmark (by simp) (heq ▸ hc)
  have hsimple : cs.rtakeWhile (fun c ↦ c ≠ '#' && c ≠ '.') = cs :=
    List.rtakeWhile_eq_self_iff.mpr fun c hc ↦ by
      have hhash : c ≠ '#' := fun heq ↦ hmark (by simp) (heq ▸ hc)
      have hdot : c ≠ '.' := fun heq ↦ hmark (by simp) (heq ▸ hc)
      simp [hhash, hdot]
  rw [simpleName, hqualified]
  exact hsimple

theorem isSimple_simpleName : IsSimple cs (simpleName cs) := by
  have hqualified : (cs.takeWhile (· ≠ '(')).rdropWhile (fun c ↦ c ≠ '#' && c ≠ '.') ++
      simpleName cs = cs.takeWhile (· ≠ '(') :=
    List.rdropWhile_append_rtakeWhile
  have hsimple (c : Char) (hc : c ∈ simpleName cs) : c ≠ '#' ∧ c ≠ '.' := by
    simpa using List.mem_rtakeWhile_imp (p := fun c ↦ c ≠ '#' && c ≠ '.') hc
  refine ⟨⟨(cs.takeWhile (· ≠ '(')).rdropWhile (fun c ↦ c ≠ '#' && c ≠ '.'),
    cs.dropWhile (· ≠ '('), ?_, ?_, ?_, ?_⟩, fun h ↦ (hsimple _ h).1 rfl,
    fun h ↦ (hsimple _ h).2 rfl⟩
  · rw [hqualified, List.takeWhile_append_dropWhile]
  · rw [hqualified]
    exact fun h ↦ absurd (List.mem_takeWhile_imp h) (by decide)
  · intro c hc
    obtain ⟨hne, rfl⟩ := List.mem_getLast?_eq_getLast hc
    have hlast := List.rdropWhile_last_not _ _ hne
    rw [Bool.and_eq_true, decide_eq_true_eq, decide_eq_true_eq] at hlast
    tauto
  · intro c hc
    have hhead := List.head?_dropWhile_not (· ≠ '(') cs
    rw [hc] at hhead
    simpa using hhead

/-! ### The words of a name -/

theorem IsWord.words_eq (h : IsWord cs) : words (String.ofList cs) = [String.ofList cs] := by
  rw [words, String.toList_ofList, simpleName_eq_self h.isWordChar_of_mem, h.wordsOf_eq,
    List.map_singleton, h.map_toLower_eq]

/-- The words of a name are the pieces of its simple part, in lower case: they hold each of its
letters and digits once, are divided exactly at the boundaries, and are not divided any further. -/
theorem words_divide_simpleName (name : String) :
    let simple := simpleName name.toList
    IsSimple name.toList simple ∧
      (∃ pieces, Cuts simple pieces ∧
        words name = (pieces.filter (·.all isWordChar)).map fun piece ↦
          String.ofList (piece.map Char.toLower)) ∧
      String.join (words name) = String.ofList ((simple.filter isWordChar).map Char.toLower) ∧
      ∀ word ∈ words name, IsWord word.toList ∧ words word = [word] := by
  intro simple
  have hcuts : Cuts simple (piecesOf simple) := cuts_piecesOf
  have hwords : words name = ((piecesOf simple).filter (·.all isWordChar)).map fun piece ↦
      String.ofList (piece.map Char.toLower) := by
    rw [words, wordsOf_eq_filter]
  refine ⟨isSimple_simpleName, ⟨piecesOf simple, hcuts, hwords⟩, ?_, ?_⟩
  · rw [← hcuts.flatten_eq, ← flatten_filter hcuts.piece, ← String.toList_inj, String.toList_join,
      hwords, String.toList_ofList, List.map_flatten, List.flatMap_map]
    simp only [String.toList_ofList]
    rfl
  · intro word hword
    rw [hwords] at hword
    obtain ⟨piece, hmem, rfl⟩ := List.mem_map.mp hword
    obtain ⟨hpiece, hall⟩ := List.mem_filter.mp hmem
    have hlower := (hcuts.piece piece hpiece).isWord_map_toLower hall
    exact ⟨by rwa [String.toList_ofList], hlower.words_eq⟩

/-- A run of capitals leaves its last one to the word that begins with it. -/
example : words "Owner#parseHTTPCode2(int)" = ["parse", "http", "code", "2"] := by
  decide

/-! ### Camel case -/

/-- A text that begins with a lower-case letter, and has only letters and digits. -/
structure IsName (name : String) : Prop where
  head_isLower : ∃ c ∈ name.toList.head?, c.isLower
  alpha_or_digit : ∀ c ∈ name.toList, c.isAlpha ∨ Text.isDecimalDigit c

/-- A name goes on with letters and digits. -/
theorem IsName.append {name tail : String} (h : IsName name)
    (htail : ∀ c ∈ tail.toList, c.isAlpha ∨ Text.isDecimalDigit c) : IsName (name ++ tail) := by
  obtain ⟨c, hc, hlower⟩ := h.head_isLower
  refine ⟨⟨c, ?_, hlower⟩, ?_⟩
  · rw [String.toList_append, List.head?_append, Option.mem_def.mp hc]
    rfl
  · rw [String.toList_append, List.forall_mem_append]
    exact ⟨h.alpha_or_digit, htail⟩

theorem isWord_of_mem_words {name word : String} (h : word ∈ words name) : IsWord word.toList := by
  rw [words, wordsOf_eq_filter] at h
  obtain ⟨piece, hmem, rfl⟩ := List.mem_map.mp h
  obtain ⟨hpiece, hall⟩ := List.mem_filter.mp hmem
  rw [String.toList_ofList]
  exact (piece_of_mem_piecesOf piece hpiece).isWord_map_toLower hall

/-- A word that starts with a digit is a number. -/
theorem startsWithDigit_iff {word : String} (h : IsWord word.toList) :
    startsWithDigit word ↔ ∀ c ∈ word.toList, Text.isDecimalDigit c := by
  obtain ⟨c, cs, heq⟩ := List.exists_cons_of_ne_nil h.ne_nil
  rw [startsWithDigit, heq, List.head?_cons, Option.any_some]
  constructor
  · intro hc
    rcases h.uniform with hletters | hdigits
    · have hlower : c.isLower := hletters c (heq ▸ List.mem_cons_self)
      exact absurd (isAlpha_of_isLower hlower) (Text.not_isAlpha_of_isDecimalDigit hc)
    · rwa [heq] at hdigits
  · intro hdigits
    exact hdigits c List.mem_cons_self

/-- A word of letters is a name. -/
theorem isName_of_not_startsWithDigit {word : String} (h : IsWord word.toList)
    (hdigit : ¬ startsWithDigit word) : IsName word := by
  rw [startsWithDigit_iff h] at hdigit
  have hletters : ∀ c ∈ word.toList, c.isLower := h.uniform.resolve_right hdigit
  obtain ⟨c, cs, heq⟩ := List.exists_cons_of_ne_nil h.ne_nil
  refine ⟨⟨c, ?_, hletters c (heq ▸ List.mem_cons_self)⟩, ?_⟩
  · rw [heq]
    rfl
  · exact fun c hc ↦ Or.inl (isAlpha_of_isLower (hletters c hc))

theorem isWordChar_toUpper (hc : isWordChar c) : isWordChar c.toUpper := by
  rcases isWordChar_iff.mp hc with halpha | hdigit
  · rw [isWordChar_iff, Char.isAlpha_toUpper_eq_isAlpha]
    exact Or.inl halpha
  · have hlower : ¬ c.isLower := fun h ↦
      Text.not_isAlpha_of_isDecimalDigit hdigit (isAlpha_of_isLower h)
    rwa [Char.toUpper_eq_of_not_isLower hlower]

/-- A capital takes the place of a letter. -/
theorem isWordChar_of_mem_capitalize {word : String} (h : ∀ c ∈ word.toList, isWordChar c) :
    ∀ c ∈ (capitalize word).toList, isWordChar c := by
  rw [capitalize]
  split
  case h_1 => exact List.forall_mem_nil _
  case h_2 c cs heq =>
    rw [heq, List.forall_mem_cons] at h
    rw [String.toList_ofList, List.forall_mem_cons]
    exact ⟨isWordChar_toUpper h.1, h.2⟩

/-- Words in camel case are a name, unless there is none or the first one is a number. -/
theorem isName_camelCase {word : String} {others : List String} (hword : IsWord word.toList)
    (hdigit : ¬ startsWithDigit word) (hothers : ∀ w ∈ others, IsWord w.toList) :
    IsName (camelCase (word :: others)) := by
  refine (isName_of_not_startsWithDigit hword hdigit).append ?_
  rw [String.toList_join, List.flatMap_map]
  intro c hc
  obtain ⟨w, hw, hmem⟩ := List.mem_flatMap.mp hc
  exact isWordChar_iff.mp
    (isWordChar_of_mem_capitalize (hothers w hw).isWordChar_of_mem c hmem)

end NearClone.Identifier
