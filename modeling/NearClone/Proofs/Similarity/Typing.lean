import NearClone.Proofs.Similarity.Variations
import Mathlib.Data.Rat.Init

/-!
# What a typing says

The two sides of a variation unify to a type that both have, or, where neither has any, to the type
that the variation records (`Typing.Unifies`). A typing of variations explains all of them
(`Typing.explains_ofVariations`): those that change the flow of control make it unsafe, are its
conflicts, and share one warning; every other one is a parameter, of the type to which its sides
unify or else of the universal type, with a warning of its own.

In a comparison a literal records a type exactly if its two texts share it, and no other variation
records any (`Similarity.inferred_eq_some_iff`). So the sides of a literal unify to the recorded
type, and those of another variation to the declared one that its names share
(`Similarity.unify_compare`). `Similarity.typing_explains_compare` puts both together.
-/

set_option autoImplicit false
set_option relaxedAutoImplicit false

namespace NearClone

namespace Typing

/-! ### Unification -/

/-- The type of a text on one side of a variation: that of its spelling if the variation is between
literals, and the declared one otherwise. -/
def sideType (hints : Hints) (v : Variation) (text : String) : Option String :=
  if v.kind = .literal then (Literal.typeOf? text).map (·.name) else hints.lookup text

/-- The two sides of a variation unify to a type. -/
inductive Unifies (left right : Hints) (v : Variation) : String → Prop
  /-- Both sides have the type. -/
  | shared {type : String} (hleft : sideType left v v.left = some type)
      (hright : sideType right v v.right = some type) : Unifies left right v type
  /-- Neither side has a type, and the variation records one, which is not empty. -/
  | recorded {type : String} (hleft : sideType left v v.left = none)
      (hright : sideType right v v.right = none) (hrecord : v.inferred = some type)
      (hne : type ≠ "") : Unifies left right v type

/-- The variation does not change the flow of control, and its sides unify to no type. -/
structure Unresolved (left right : Hints) (v : Variation) : Prop where
  kind_ne : v.kind ≠ .controlFlow
  not_unifies : ∀ type, ¬ Unifies left right v type

variable {left right : Hints} {v : Variation} {vs : List Variation}

/-- Two sides agree on a type exactly if both have it, or neither has any and it is recorded. -/
theorem agree_eq_some_iff {first second recorded : Option String} {type : String} :
    agree first second recorded = some type ↔
      first = some type ∧ second = some type ∨
        first = none ∧ second = none ∧ recorded = some type ∧ type ≠ "" := by
  cases first with
  | none =>
    cases second with
    | none =>
      rw [agree, Option.filter_eq_some_iff, Bool.not_eq_true', String.isEmpty_eq_false_iff]
      simp only [reduceCtorEq, false_and, true_and, false_or]
    | some b => simp only [agree, reduceCtorEq, false_and, and_false, or_self]
  | some a =>
    cases second with
    | none => simp only [agree, reduceCtorEq, false_and, and_false, or_self]
    | some b =>
      rw [agree, Option.ite_none_right_eq_some]
      simp only [Option.some.injEq, reduceCtorEq, false_and, or_false]
      exact ⟨fun h ↦ ⟨h.2, h.1 ▸ h.2⟩, fun h ↦ ⟨h.1.trans h.2.symm, h.1⟩⟩

/-- The type of a variation as a parameter is the one to which its sides unify. -/
theorem unify_eq_some_iff {type : String} :
    unify left right v = some type ↔ Unifies left right v type := by
  have hagree : unify left right v =
      agree (sideType left v v.left) (sideType right v v.right) v.inferred := by
    simp only [unify, sideType]
    split <;> rfl
  rw [hagree, agree_eq_some_iff]
  constructor
  · rintro (⟨hleft, hright⟩ | ⟨hleft, hright, hrecord, hne⟩)
    · exact .shared hleft hright
    · exact .recorded hleft hright hrecord hne
  · rintro (⟨hleft, hright⟩ | ⟨hleft, hright, hrecord, hne⟩)
    · exact Or.inl ⟨hleft, hright⟩
    · exact Or.inr ⟨hleft, hright, hrecord, hne⟩

/-- A variation is unresolved exactly if it has no type as a parameter. -/
theorem unresolved_iff :
    Unresolved left right v ↔ v.kind ≠ .controlFlow ∧ unify left right v = none := by
  rw [Option.eq_none_iff_forall_ne_some]
  simp only [ne_eq, unify_eq_some_iff]
  exact ⟨fun h ↦ ⟨h.kind_ne, h.not_unifies⟩, fun h ↦ ⟨h.1, h.2⟩⟩

instance decidableUnresolved : DecidablePred (Unresolved left right) := fun _ ↦
  decidable_of_iff _ unresolved_iff.symm

/-! ### Warnings -/

/-- The warnings about the unresolved variations, in order. -/
def fallbacks (left right : Hints) (vs : List Variation) : List String :=
  (vs.filter fun v ↦ Unresolved left right v).map fallbackWarning

theorem fallbacks_append (vs ws : List Variation) :
    fallbacks left right (vs ++ ws) = fallbacks left right vs ++ fallbacks left right ws := by
  rw [fallbacks, List.filter_append, List.map_append, fallbacks, fallbacks]

/-- The warning about the flow of control differs from every other one, in its third letter at the
latest. -/
theorem flowWarning_ne_fallbackWarning (v : Variation) : flowWarning ≠ fallbackWarning v := by
  have hflow : flowWarning.toList[2]? = some 'n' := by decide
  have hfallback : (fallbackWarning v).toList[2]? = some 'u' := by
    unfold fallbackWarning
    simp only [String.toList_append, List.append_assoc]
    rw [List.getElem?_append_left (by decide)]
    decide
  intro h
  rw [h, hfallback] at hflow
  exact absurd hflow (by decide)

theorem flowWarning_not_mem_fallbacks : flowWarning ∉ fallbacks left right vs := by
  rw [fallbacks, List.mem_map]
  rintro ⟨v, -, hv⟩
  exact flowWarning_ne_fallbackWarning v hv.symm

/-- A variation that does not change the flow of control is warned about if it is unresolved. -/
theorem warningsOf_cons_of_ne (flagged : Bool) (h : v.kind ≠ .controlFlow) :
    warningsOf left right flagged (v :: vs) =
      fallbacks left right [v] ++ warningsOf left right flagged vs := by
  rw [warningsOf, if_neg h]
  cases hunify : unify left right v with
  | none =>
    have hunresolved : Unresolved left right v := unresolved_iff.mpr ⟨h, hunify⟩
    simp [fallbacks, hunresolved]
  | some type =>
    have hresolved : ¬ Unresolved left right v := fun hv ↦
      hv.not_unifies type (unify_eq_some_iff.mp hunify)
    simp [fallbacks, hresolved]

/-- Variations without a change of the flow of control are warned about where they are unresolved,
before all that follow. -/
theorem warningsOf_append (flagged : Bool) (h : ∀ v ∈ vs, v.kind ≠ .controlFlow)
    (rest : List Variation) :
    warningsOf left right flagged (vs ++ rest) =
      fallbacks left right vs ++ warningsOf left right flagged rest := by
  induction vs with
  | nil => rfl
  | cons v vs ih =>
    obtain ⟨hv, hvs⟩ := List.forall_mem_cons.mp h
    rw [List.cons_append, warningsOf_cons_of_ne flagged hv, ih hvs, ← List.append_assoc,
      ← fallbacks_append, List.singleton_append]

/-- Behind the first change of the flow of control only unresolved variations are warned about. -/
theorem warningsOf_true (vs : List Variation) :
    warningsOf left right true vs = fallbacks left right vs := by
  induction vs with
  | nil => rfl
  | cons v vs ih =>
    by_cases hflow : v.kind = .controlFlow
    · have hresolved : ¬ Unresolved left right v := fun hv ↦ hv.kind_ne hflow
      rw [warningsOf, if_pos hflow, if_pos rfl, ih]
      simp [fallbacks, hresolved]
    · rw [warningsOf_cons_of_ne true hflow, ih, ← fallbacks_append, List.singleton_append]

/-- The first change of the flow of control is warned about between the unresolved variations before
it and those behind it. -/
theorem warningsOf_append_cons {before after : List Variation}
    (hbefore : ∀ u ∈ before, u.kind ≠ .controlFlow) (h : v.kind = .controlFlow) :
    warningsOf left right false (before ++ v :: after) =
      fallbacks left right before ++ flowWarning :: fallbacks left right after := by
  rw [warningsOf_append false hbefore, warningsOf, if_pos h, if_neg Bool.false_ne_true,
    warningsOf_true]

/-! ### The account of a typing -/

/-- A typing explains variations under the declared types of either side. -/
structure Explains (left right : Hints) (vs : List Variation) (typing : Typing) : Prop where
  safe_iff : typing.safe = true ↔ ∀ v ∈ vs, v.kind ≠ .controlFlow
  pairwise_keys : (typing.parameters.map Prod.fst).Pairwise (· < ·)
  /-- The keys are the ordinals of the variations that do not change the flow of control. -/
  mem_keys_iff : ∀ k, k ∈ typing.parameters.map Prod.fst ↔
    ∃ v, vs[k]? = some v ∧ v.kind ≠ .controlFlow
  unified : ∀ k v type, vs[k]? = some v → v.kind ≠ .controlFlow → Unifies left right v type →
    (k, type) ∈ typing.parameters
  universal : ∀ k v, vs[k]? = some v → Unresolved left right v →
    (k, universal) ∈ typing.parameters
  conflicts : typing.conflicts = (flowing vs).map conflict
  /-- The warning about the flow of control is given once, if at all. -/
  count_flowWarning : typing.warnings.count flowWarning =
    if ∃ v ∈ vs, v.kind = .controlFlow then 1 else 0
  /-- It stands at the place of the first variation that changes the flow of control. -/
  warnings_of_flow : ∀ before v after, vs = before ++ v :: after →
    (∀ u ∈ before, u.kind ≠ .controlFlow) → v.kind = .controlFlow →
    typing.warnings = fallbacks left right before ++ flowWarning :: fallbacks left right after
  /-- All other warnings are those about unresolved variations, in order. -/
  filter_warnings : (typing.warnings.filter fun warning ↦ warning ≠ flowWarning) =
    fallbacks left right vs

/-- A parameter with its ordinal is that of a variation which does not change the flow of
control. -/
theorem mem_parameters_ofVariations {k : ℕ} {type : String} :
    (k, type) ∈ (ofVariations left right vs).parameters ↔
      ∃ v, vs[k]? = some v ∧ v.kind ≠ .controlFlow ∧
        (unify left right v).getD universal = type := by
  change (k, type) ∈ vs.zipIdx.filterMap _ ↔ _
  rw [List.mem_filterMap]
  constructor
  · rintro ⟨⟨v, k'⟩, hentry, hparameter⟩
    rw [Option.ite_none_left_eq_some, Option.some.injEq, Prod.mk.injEq] at hparameter
    obtain ⟨hkind, rfl, htype⟩ := hparameter
    exact ⟨v, List.mk_mem_zipIdx_iff_getElem?.mp hentry, hkind, htype⟩
  · rintro ⟨v, hv, hkind, rfl⟩
    exact ⟨(v, k), List.mk_mem_zipIdx_iff_getElem?.mpr hv, if_neg hkind⟩

/-- The parameters come in the order of their ordinals. -/
theorem pairwise_keys_ofVariations :
    ((ofVariations left right vs).parameters.map Prod.fst).Pairwise (· < ·) := by
  rw [List.pairwise_map]
  refine (Listing.pairwise_zipIdx vs).filterMap _ fun e e' hlt p hp p' hp' ↦ ?_
  rw [Option.ite_none_left_eq_some, Option.some.injEq] at hp hp'
  rw [← hp.2, ← hp'.2]
  exact hlt

/-- Of variations either none changes the flow of control, or there is a first one that does. -/
theorem forall_kind_ne_or_exists_first (vs : List Variation) :
    (∀ v ∈ vs, v.kind ≠ .controlFlow) ∨
      ∃ before v after, vs = before ++ v :: after ∧ (∀ u ∈ before, u.kind ≠ .controlFlow) ∧
        v.kind = .controlFlow := by
  cases hfind : vs.find? fun v ↦ v.kind = .controlFlow with
  | none =>
    rw [List.find?_eq_none] at hfind
    exact Or.inl fun v hv hflow ↦ hfind v hv (decide_eq_true hflow)
  | some v =>
    obtain ⟨hflow, before, after, hvs, hbefore⟩ := List.find?_eq_some_iff_append.mp hfind
    refine Or.inr ⟨before, v, after, hvs, fun u hu ↦ ?_, of_decide_eq_true hflow⟩
    simpa using hbefore u hu

/-- Without a change of the flow of control all warnings are about unresolved variations. -/
theorem warningsOf_of_forall_ne (h : ∀ v ∈ vs, v.kind ≠ .controlFlow) :
    warningsOf left right false vs = fallbacks left right vs := by
  have happend : warningsOf left right false (vs ++ []) =
      fallbacks left right vs ++ warningsOf left right false [] :=
    warningsOf_append false h []
  rwa [List.append_nil, warningsOf, List.append_nil] at happend

/-- Warnings about unresolved variations are not about the flow of control. -/
theorem filter_fallbacks (vs : List Variation) :
    ((fallbacks left right vs).filter fun warning ↦ warning ≠ flowWarning) =
      fallbacks left right vs := by
  rw [List.filter_eq_self]
  rintro warning hwarning
  rw [decide_eq_true_eq]
  rintro rfl
  exact flowWarning_not_mem_fallbacks hwarning

/-- The typing of variations explains them. -/
theorem explains_ofVariations (left right : Hints) (vs : List Variation) :
    Explains left right vs (ofVariations left right vs) where
  safe_iff := by simp only [ofVariations, List.all_eq_true, decide_eq_true_eq]
  pairwise_keys := pairwise_keys_ofVariations
  mem_keys_iff k := by
    rw [List.mem_map]
    constructor
    · rintro ⟨⟨k, type⟩, hp, rfl⟩
      obtain ⟨v, hv, hkind, -⟩ := mem_parameters_ofVariations.mp hp
      exact ⟨v, hv, hkind⟩
    · rintro ⟨v, hv, hkind⟩
      exact ⟨_, mem_parameters_ofVariations.mpr ⟨v, hv, hkind, rfl⟩, rfl⟩
  unified k v type hv hkind htype := by
    refine mem_parameters_ofVariations.mpr ⟨v, hv, hkind, ?_⟩
    rw [unify_eq_some_iff.mpr htype, Option.getD_some]
  universal k v hv hunresolved := by
    obtain ⟨hkind, hunify⟩ := unresolved_iff.mp hunresolved
    refine mem_parameters_ofVariations.mpr ⟨v, hv, hkind, ?_⟩
    rw [hunify, Option.getD_none]
  conflicts := rfl
  count_flowWarning := by
    change (warningsOf left right false vs).count flowWarning = _
    rcases forall_kind_ne_or_exists_first vs with h | ⟨before, v, after, rfl, hbefore, hflow⟩
    · rw [if_neg (by push Not; exact h), warningsOf_of_forall_ne h,
        List.count_eq_zero_of_not_mem flowWarning_not_mem_fallbacks]
    · rw [if_pos ⟨v, List.mem_append_cons_self, hflow⟩, warningsOf_append_cons hbefore hflow,
        List.count_append, List.count_cons_self,
        List.count_eq_zero_of_not_mem flowWarning_not_mem_fallbacks,
        List.count_eq_zero_of_not_mem flowWarning_not_mem_fallbacks]
  warnings_of_flow before v after hvs hbefore hflow := by
    rw [hvs]
    exact warningsOf_append_cons hbefore hflow
  filter_warnings := by
    change (warningsOf left right false vs).filter _ = _
    rcases forall_kind_ne_or_exists_first vs with h | ⟨before, v, after, rfl, hbefore, hflow⟩
    · rw [warningsOf_of_forall_ne h, filter_fallbacks]
    · have hresolved : ¬ Unresolved left right v := fun hv ↦ hv.kind_ne hflow
      have hnone : fallbacks left right [v] = [] := by simp [fallbacks, hresolved]
      rw [warningsOf_append_cons hbefore hflow, List.filter_append, filter_fallbacks,
        List.filter_cons_of_neg (by simp), filter_fallbacks, ← List.singleton_append,
        fallbacks_append, fallbacks_append, hnone, List.nil_append]

/-- The parameter that a variation becomes has a type, or the universal one and a warning where
there is none. -/
structure TypesParameter (left right : Hints) (typing : Typing) (k : ℕ) (v : Variation)
    (type : Option String) : Prop where
  mem_parameters : (k, type.getD universal) ∈ typing.parameters
  unresolved_iff : Unresolved left right v ↔ type = none
  warned : type = none → fallbackWarning v ∈ typing.warnings

/-- A variation that does not change the flow of control becomes a parameter of the type to which
its sides unify. -/
theorem typesParameter_ofVariations {k : ℕ} (hv : vs[k]? = some v) (hkind : v.kind ≠ .controlFlow) :
    TypesParameter left right (ofVariations left right vs) k v (unify left right v) where
  mem_parameters := mem_parameters_ofVariations.mpr ⟨v, hv, hkind, rfl⟩
  unresolved_iff := unresolved_iff.trans (and_iff_right hkind)
  warned hunify := by
    have hunresolved : Unresolved left right v := unresolved_iff.mpr ⟨hkind, hunify⟩
    have hfallback : fallbackWarning v ∈ fallbacks left right vs :=
      List.mem_map_of_mem (List.mem_filter.mpr
        ⟨List.mem_of_getElem? hv, decide_eq_true hunresolved⟩)
    rw [← (explains_ofVariations left right vs).filter_warnings] at hfallback
    exact (List.mem_filter.mp hfallback).1

/-! ### Types of parameters -/

/-- The declared type that the two names of a variation share. -/
def declared (left right : Hints) (v : Variation) : Option String :=
  (left.lookup v.left).filter fun type ↦ right.lookup v.right = some type

/-- A variation that is no literal and records no type has the declared type that its names
share. -/
theorem unify_of_kind_ne_literal (hkind : v.kind ≠ .literal) (hrecord : v.inferred = none) :
    unify left right v = declared left right v := by
  refine Option.ext fun type ↦ ?_
  rw [unify, if_neg hkind, hrecord, agree_eq_some_iff, declared, Option.filter_eq_some_iff,
    decide_eq_true_eq]
  simp only [reduceCtorEq, false_and, and_false, or_false]

end Typing

/-- A literal that records the type which its texts share, if they do, has that type. -/
theorem Typing.unify_of_kind_eq_literal {left right : Hints} {v : Variation}
    (hkind : v.kind = .literal)
    (hrecord : ∀ name, v.inferred = some name ↔ ∃ type, Literal.typeOf? v.left = some type ∧
      Literal.typeOf? v.right = some type ∧ type.name = name) :
    unify left right v = v.inferred := by
  refine Option.ext fun name ↦ ?_
  rw [unify, if_pos hkind, agree_eq_some_iff, hrecord name]
  constructor
  · rintro (⟨hleft, hright⟩ | ⟨hleft, -, ⟨type, htype, -⟩, -⟩)
    · obtain ⟨a, ha, hname⟩ := Option.map_eq_some_iff.mp hleft
      obtain ⟨b, hb, hname'⟩ := Option.map_eq_some_iff.mp hright
      obtain rfl := LiteralType.name_injective (hname.trans hname'.symm)
      exact ⟨a, ha, hb, hname⟩
    · rw [htype] at hleft
      cases hleft
  · rintro ⟨type, hleft, hright, rfl⟩
    rw [hleft, hright]
    exact Or.inl ⟨rfl, rfl⟩

namespace Similarity

variable {α : Type} [Scalar α] {w : Weights α} {f g : Fragment} {v : Variation}

/-- A variation of a comparison records a type exactly if it is between literals that share it. -/
theorem inferred_eq_some_iff (hv : v ∈ (compare w f g).differences.variations) (name : String) :
    v.inferred = some name ↔ v.kind = .literal ∧ ∃ type, Literal.typeOf? v.left = some type ∧
      Literal.typeOf? v.right = some type ∧ type.name = name := by
  rw [differences_compare] at hv
  obtain ⟨i, j, s, t, -, hflow | ⟨slot, a, b, -, hslot⟩⟩ :=
    Differences.mem_variations_along_iff.mp hv
  · rw [hflow.inferred, hflow.kind]
    simp only [reduceCtorEq, false_and]
  · rw [hslot.isAt.left, hslot.isAt.right]
    exact hslot.classifies.inferred_iff name

/-- The type to which the sides of a variation of a comparison unify: the recorded one of a literal,
and else the declared type that the names share. -/
theorem unify_compare (hv : v ∈ (compare w f g).differences.variations) (left right : Hints) :
    Typing.unify left right v =
      if v.kind = .literal then v.inferred else Typing.declared left right v := by
  split
  case isTrue hkind =>
    refine Typing.unify_of_kind_eq_literal hkind fun name ↦ ?_
    rw [inferred_eq_some_iff hv name, and_iff_right hkind]
  case isFalse hkind =>
    refine Typing.unify_of_kind_ne_literal hkind ?_
    rw [Option.eq_none_iff_forall_ne_some]
    exact fun name hname ↦ hkind ((inferred_eq_some_iff hv name).mp hname).1

/-- Typings are complete and agree with the variations. Whatever the variations and the declared
types are, which for the second side may be those of the first, a typing explains all variations. It
is safe exactly if none of them changes the flow of control; the keys of its parameters are the
ordinals of all others; its conflicts are those in the flow of control, which share one warning at
the place of the first; and each variation whose sides do not unify gets the universal type and a
warning of its own, in order. In a comparison every literal has the type that it records, or the
universal one and a warning if it records none; and every other parameter has the declared type that
its two names share, or the universal one and a warning if they share none. -/
theorem typing_explains_compare :
    (∀ (left right : Option Hints) (vs : List Variation),
      Typing.Explains (left.getD []) (right.getD (left.getD [])) vs
        (Typing.ofVariations? left right vs)) ∧
    ∀ (w : Weights α) (f g : Fragment),
      let similarity := compare w f g
      let variations := similarity.differences.variations
      Typing.Explains f.hints g.hints variations similarity.typing ∧
      ∀ k v, variations[k]? = some v → v.kind ≠ .controlFlow →
        Typing.TypesParameter f.hints g.hints similarity.typing k v
          (if v.kind = .literal then v.inferred else Typing.declared f.hints g.hints v) := by
  refine ⟨fun left right vs ↦ Typing.explains_ofVariations _ _ vs, fun w f g ↦ ?_⟩
  intro similarity variations
  have htyping : similarity.typing = Typing.ofVariations f.hints g.hints variations :=
    typing_compare w f g
  rw [htyping]
  refine ⟨Typing.explains_ofVariations _ _ variations, fun k v hv hkind ↦ ?_⟩
  rw [← unify_compare (List.mem_of_getElem? hv)]
  exact Typing.typesParameter_ofVariations hv hkind

/-- Two calls that differ in two numbers, in a number and a text, and in two names of one declared
type: the numbers and the names have their types, and the number and the text are warned about. -/
theorem typing_explains_compare_call :
    let call : List String → Fragment := fun texts ↦
      { statements :=
          [{ shape := "call", kind := "expression"
             slots := List.zipWith Slot.mk [.literal, .literal, .identifier] texts }]
        location := ⟨"main", ⟨1, 1, 1, 1⟩⟩
        hints := [("first", "Order"), ("second", "Order")] }
    let similarity : Similarity ℚ :=
      compare Weights.balanced (call ["1", "2", "first"]) (call ["0x1F", "\"b\"", "second"])
    ∃ numbers mixed names : Variation,
      similarity.differences.variations = [numbers, mixed, names] ∧
      numbers.kind = .literal ∧ mixed.kind = .literal ∧ names.kind = .identifier ∧
      (0, "integer") ∈ similarity.typing.parameters ∧
      (1, Typing.universal) ∈ similarity.typing.parameters ∧
      Typing.fallbackWarning mixed ∈ similarity.typing.warnings ∧
      (2, "Order") ∈ similarity.typing.parameters := by
  intro call similarity
  have hvariations : similarity.differences.variations =
      [{ kind := .literal, leftIndex := 0, rightIndex := 0, left := "1", right := "0x1F"
         inferred := some "integer" },
        { kind := .literal, leftIndex := 0, rightIndex := 0, left := "2", right := "\"b\""
          slot := 1 },
        { kind := .identifier, leftIndex := 0, rightIndex := 0, left := "first"
          right := "second", slot := 2 }] := by
    decide +kernel
  obtain ⟨-, htypes⟩ := (typing_explains_compare (α := ℚ)).2 Weights.balanced
    (call ["1", "2", "first"]) (call ["0x1F", "\"b\"", "second"])
  have hnumbers := htypes 0 _ (congrArg (·[0]?) hvariations) (by decide)
  have hmixed := htypes 1 _ (congrArg (·[1]?) hvariations) (by decide)
  have hnames := htypes 2 _ (congrArg (·[2]?) hvariations) (by decide)
  exact ⟨_, _, _, hvariations, rfl, rfl, rfl, hnumbers.mem_parameters, hmixed.mem_parameters,
    hmixed.warned rfl, hnames.mem_parameters⟩

end Similarity

end NearClone
