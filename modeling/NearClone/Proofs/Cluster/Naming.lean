import NearClone.Cluster.Advice
import NearClone.Proofs.Cluster.Members
import NearClone.Proofs.Identifier
import NearClone.Proofs.Listing.Shared

/-!
# The suggested name

The words that the names of all methods around the members share are those of the primary member's
name that occur in every other one, each of them once and in the order in which they first occur
(`Shares`, `shares_commonWords`). Where every member is in a method, the names are looked through in
the order of the members, so that the first of them is that of the primary one
(`sharedWords_eq_commonWords`). The suggested name is these words in camel case. If there is none,
or the first of them is a number, and also where a member is outside of any method, it is a generic
name with the number of the cluster (`Unnamed`, `suggestName_cases`). In all cases it begins with a
lower-case letter, and has only letters and digits (`suggestName_of_mem_group`).
-/

set_option autoImplicit false
set_option relaxedAutoImplicit false

namespace NearClone

/-- Either an element has no value, or the values of all can be listed. -/
theorem Listing.mapM_cases {β γ : Type} (f : β → Option γ) (xs : List β) :
    ((∃ x ∈ xs, f x = none) ∧ xs.mapM f = none) ∨
      ∃ ys, xs.map f = ys.map some ∧ xs.mapM f = some ys := by
  induction xs with
  | nil => exact Or.inr ⟨[], rfl, rfl⟩
  | cons x xs ih =>
    rw [List.mapM_cons, List.map_cons]
    cases hx : f x with
    | none => exact Or.inl ⟨⟨x, List.mem_cons_self, hx⟩, rfl⟩
    | some y =>
      rcases ih with ⟨⟨z, hz, hnone⟩, hrest⟩ | ⟨ys, hmap, hrest⟩
      · rw [hrest]
        exact Or.inl ⟨⟨z, List.mem_cons_of_mem x hz, hnone⟩, rfl⟩
      · rw [hrest, hmap]
        exact Or.inr ⟨y :: ys, rfl, rfl⟩

/-- The words of the name of the method around a fragment; none outside of any method. -/
def Fragment.methodWords (f : Fragment) : List String := f.method.elim [] Identifier.words

/-- The words of a method's name are words. -/
theorem Fragment.isWord_of_mem_methodWords {f : Fragment} {w : String} (hw : w ∈ f.methodWords) :
    Identifier.IsWord w.toList := by
  unfold methodWords at hw
  cases hmethod : f.method with
  | none =>
    rw [hmethod] at hw
    exact absurd hw List.not_mem_nil
  | some name =>
    rw [hmethod] at hw
    exact Identifier.isWord_of_mem_words hw

namespace Cluster

open Listing

variable {α : Type} {c : Config α} {k : Cluster α} {pairs : List (ClonePair α)}

/-! ### Shared words -/

/-- The words of the primary member's method that occur in the method name of every member, each of
them once, in the order in which they first occur. -/
structure Shares (k : Cluster α) (shared : List String) : Prop where
  mem_iff : ∀ w, w ∈ shared ↔
    w ∈ k.primary.methodWords ∧ ∀ f ∈ k.members, w ∈ f.methodWords
  pairwise_idxOf : shared.Pairwise fun v w ↦
    k.primary.methodWords.idxOf v < k.primary.methodWords.idxOf w

/-- The words that all method names around the members share. -/
def commonWords (k : Cluster α) : List String :=
  distinct (k.primary.methodWords.filter fun w ↦
    k.members.all fun f ↦ f.methodWords.contains w)

theorem shares_commonWords (k : Cluster α) : k.Shares k.commonWords where
  mem_iff := by
    intro w
    rw [commonWords, mem_distinct, List.mem_filter]
    simp only [List.all_eq_true, List.contains_iff_mem]
  pairwise_idxOf := by
    have hdistinct : k.commonWords = (distinct k.primary.methodWords).filter fun w ↦
        k.members.all fun f ↦ f.methodWords.contains w :=
      (filter_firstPer (fun {v w} (h : v = w) ↦ by rw [h]) _).symm
    rw [hdistinct]
    exact (pairwise_idxOf_distinct _).filter _

/-- No other words are shared. -/
theorem shares_iff {shared : List String} : k.Shares shared ↔ shared = k.commonWords := by
  constructor
  · intro h
    refine eq_of_pairwise_of_mem_iff ?_ h.pairwise_idxOf k.shares_commonWords.pairwise_idxOf ?_
    · exact fun v _ w _ ↦ Nat.lt_asymm
    · exact fun w ↦ (h.mem_iff w).trans (k.shares_commonWords.mem_iff w).symm
  · rintro rfl
    exact k.shares_commonWords

theorem isWord_of_mem_commonWords (k : Cluster α) :
    ∀ w ∈ k.commonWords, Identifier.IsWord w.toList := fun w hw ↦
  Fragment.isWord_of_mem_methodWords ((k.shares_commonWords.mem_iff w).mp hw).1

/-- Where every member is in a method, the first name is that of the primary member, and the words
looked for are shared by all. -/
theorem sharedWords_eq_commonWords (hk : k ∈ group c pairs) {names : List String}
    (hnames : k.members.map (·.method) = names.map some) :
    k.sharedWords names = k.commonWords := by
  have hothers : names.map Identifier.words = k.members.map Fragment.methodWords := by
    have hwords := congrArg (List.map fun name ↦ name.elim [] Identifier.words) hnames
    rw [List.map_map, List.map_map] at hwords
    exact hwords.symm
  have hleading : Identifier.words (k.leadingName names) = k.primary.methodWords := by
    have hhead := congrArg List.head? hnames
    rw [List.head?_map, head?_members hk, List.head?_map] at hhead
    cases names with
    | nil => exact absurd hhead nofun
    | cons name names =>
      have hprimary : k.primary.method = some name := Option.some.inj hhead
      rw [leadingName, Fragment.methodWords, hprimary]
      exact congrArg Identifier.words (ite_self name)
  rw [sharedWords, hleading, hothers, commonWords]
  simp only [List.all_map, Function.comp_def]

/-! ### Names -/

/-- Reasons for a generic name. -/
inductive Unnamed (k : Cluster α) (shared : List String) : Prop
  /-- A member is outside of any method. -/
  | outside (h : ∃ f ∈ k.members, f.method = none)
  /-- There is no shared word. -/
  | nothing (h : shared = [])
  /-- The first shared word is a number. -/
  | number (h : ∃ w ∈ shared.head?, ∀ ch ∈ w.toList, Text.isDecimalDigit ch)

/-- A generic name is a name. -/
theorem isName_genericName (ordinal : ℕ) : Identifier.IsName (genericName ordinal) := by
  have hletters : ∀ ch ∈ "extractedMethod".toList, ch.isAlpha := by simp [Char.isAlpha]
  have hstem : Identifier.IsName "extractedMethod" :=
    ⟨⟨'e', rfl, rfl⟩, fun ch hch ↦ Or.inl (hletters ch hch)⟩
  show Identifier.IsName ("extractedMethod" ++ ordinal.repr)
  refine hstem.append fun ch hch ↦ Or.inr (Text.isDecimalDigit_of_isDigit ?_)
  rw [Nat.toList_repr] at hch
  exact Nat.isDigit_of_mem_toDigits (by decide) (by decide) hch

/-- Every member has one of the listed names. -/
theorem exists_method_eq {names : List String} {f : Fragment}
    (hnames : k.members.map (·.method) = names.map some) (hf : f ∈ k.members) :
    ∃ name ∈ names, f.method = some name := by
  have hmember : f.method ∈ names.map some := hnames ▸ List.mem_map_of_mem hf
  obtain ⟨name, hname, hsome⟩ := List.mem_map.mp hmember
  exact ⟨name, hname, hsome.symm⟩

/-- Where every member is in a method, the name depends on the common words alone. -/
theorem suggestName_eq (hk : k ∈ group c pairs) {names : List String}
    (hnames : k.members.map (·.method) = names.map some)
    (hmethods : k.members.mapM (·.method) = some names) (ordinal : ℤ) :
    k.suggestName ordinal =
      match k.commonWords with
      | [] => genericName ordinal
      | word :: others =>
        if Identifier.startsWithDigit word then genericName ordinal
        else Identifier.camelCase (word :: others) := by
  rw [← sharedWords_eq_commonWords hk hnames, suggestName, hmethods]
  cases names with
  | nil =>
    obtain ⟨name, hname, -⟩ := exists_method_eq hnames (primary_mem_members hk)
    exact absurd hname List.not_mem_nil
  | cons name names => rfl

/-- Where every member is in a method, a number in front is the one reason not to use some words. -/
theorem unnamed_cons_iff {word : String} {others : List String}
    (hinside : ∀ f ∈ k.members, f.method ≠ none) (hword : Identifier.IsWord word.toList) :
    k.Unnamed (word :: others) ↔ Identifier.startsWithDigit word := by
  rw [Identifier.startsWithDigit_iff hword]
  constructor
  · rintro (⟨f, hf, hnone⟩ | hnil | ⟨w, hw, hnumber⟩)
    · exact absurd hnone (hinside f hf)
    · exact absurd hnil (List.cons_ne_nil word others)
    · obtain rfl : word = w := Option.some.inj hw
      exact hnumber
  · intro hnumber
    exact .number ⟨word, rfl, hnumber⟩

/-- There is a reason for the generic name, or the name is made of the common words. -/
theorem suggestName_cases (hk : k ∈ group c pairs) (ordinal : ℤ) :
    k.Unnamed k.commonWords ∧ k.suggestName ordinal = genericName ordinal ∨
      ¬ k.Unnamed k.commonWords ∧ k.suggestName ordinal = Identifier.camelCase k.commonWords ∧
        Identifier.IsName (Identifier.camelCase k.commonWords) := by
  rcases mapM_cases (·.method) k.members with ⟨houtside, hnone⟩ | ⟨names, hnames, hmethods⟩
  · refine Or.inl ⟨.outside houtside, ?_⟩
    rw [suggestName, hnone]
  · have hinside : ∀ f ∈ k.members, f.method ≠ none := by
      intro f hf
      obtain ⟨name, -, hsome⟩ := exists_method_eq hnames hf
      rw [hsome]
      exact Option.some_ne_none name
    have hwords := k.isWord_of_mem_commonWords
    rw [suggestName_eq hk hnames hmethods]
    cases hcommon : k.commonWords with
    | nil => exact Or.inl ⟨.nothing rfl, rfl⟩
    | cons word others =>
      obtain ⟨hword, hothers⟩ := List.forall_mem_cons.mp (hcommon ▸ hwords)
      rw [unnamed_cons_iff hinside hword]
      by_cases hdigit : Identifier.startsWithDigit word
      · exact Or.inl ⟨hdigit, if_pos hdigit⟩
      · exact Or.inr ⟨hdigit, if_neg hdigit, Identifier.isName_camelCase hword hdigit hothers⟩

/-- Whatever the methods around the members are called, the suggested name is a name: a generic one
if there is a reason for that, and otherwise the shared words in camel case. Just one list of words
is shared. Where these spell a generic name, both are the same text. -/
theorem suggestName_of_mem_group (hk : k ∈ group c pairs) (ordinal : ℕ) :
    ∃ shared, (∀ words, k.Shares words ↔ words = shared) ∧
      (k.Unnamed shared ∧ k.suggestName ordinal = "extractedMethod" ++ toString ordinal ∨
        ¬ k.Unnamed shared ∧ k.suggestName ordinal = Identifier.camelCase shared) ∧
      Identifier.IsName (k.suggestName ordinal) := by
  refine ⟨k.commonWords, fun words ↦ shares_iff, ?_⟩
  rcases suggestName_cases hk ordinal with ⟨hunnamed, heq⟩ | ⟨hnamed, heq, hname⟩
  · exact ⟨Or.inl ⟨hunnamed, heq⟩, heq ▸ isName_genericName ordinal⟩
  · exact ⟨Or.inr ⟨hnamed, heq⟩, heq ▸ hname⟩

/-- Three methods in different styles share two words. -/
theorem suggestName_of_mem_group_parse :
    let fragment : String → Int → Fragment := fun method line ↦
      { statements := [{ shape := "call", kind := "expression" }]
        location := ⟨"main", ⟨line, line, 1, 1⟩⟩
        method := some method }
    let pair : Fragment → Fragment → ClonePair ℚ := fun f g ↦ ⟨f, g, Similarity.empty⟩
    let first := fragment "Owner#parseHTTPHeader2(int)" 1
    let pairs := [pair first (fragment "parse_http_body" 5),
      pair (fragment "parse_http_body" 5) (fragment "Http.tryParseHttp" 9)]
    let k : Cluster ℚ := ⟨first, pairs, 0, none⟩
    k ∈ group Config.default pairs ∧ k.Shares ["parse", "http"] ∧
      Identifier.IsName (k.suggestName (3 : ℕ)) ∧ k.suggestName (3 : ℕ) = "parseHttp" := by
  intro fragment pair first pairs k
  have hk : k ∈ group Config.default pairs := mem_group_iff.mpr (by decide +kernel)
  obtain ⟨shared, -, -, hname⟩ := suggestName_of_mem_group hk 3
  have hmembers : k.members = fragmentsOf pairs := sortBy_of_pairwise (by decide +kernel)
  refine ⟨hk, shares_iff.mpr ?_, hname, ?_⟩
  · rw [commonWords, hmembers]
    decide +kernel
  · rw [suggestName, hmembers]
    decide +kernel

/-- The shared words may spell a generic name. -/
example : Identifier.camelCase (Identifier.words "extracted_method1") = genericName 1 := by
  decide +kernel

end Cluster

end NearClone
