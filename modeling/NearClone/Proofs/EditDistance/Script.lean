import Mathlib.Data.List.InsertIdx
import Mathlib.Order.Bounds.Defs
import NearClone.Proofs.EditDistance

/-!
# Edit scripts

An edit inserts, deletes or replaces one element of a list, and a script is a list of edits that are
done one after the other. The edit distance is the length of the shortest script that turns one list
into the other (`isLeast_distance`). Some script has this length, since every choice of the table is
an edit at the front of the lists (`exists_script`). None is shorter: an edit moves a list by no
more than one, as seen from any third list (`Edit.within_of_perform?`), and so a script moves it by
no more than its length (`Turns.within`). The same bound gives the triangle inequality
(`distance_triangle`).
-/

set_option autoImplicit false
set_option relaxedAutoImplicit false

namespace NearClone.EditDistance

variable {κ : Type}

/-! ### Edits -/

/-- A change of one element: it is inserted at a place, deleted from it, or replaced there. -/
inductive Edit (κ : Type) where
  | insert (place : ℕ) (x : κ)
  | delete (place : ℕ)
  | replace (place : ℕ) (x : κ)
  deriving DecidableEq, Repr

namespace Edit

/-- The list after an edit; none if the list does not have the place. -/
def perform? : Edit κ → List κ → Option (List κ)
  | insert place x, xs => if place ≤ xs.length then some (xs.insertIdx place x) else none
  | delete place, xs => if place < xs.length then some (xs.eraseIdx place) else none
  | replace place x, xs => if place < xs.length then some (xs.set place x) else none

/-- The same edit one place farther on. -/
def shift : Edit κ → Edit κ
  | insert place x => insert (place + 1) x
  | delete place => delete (place + 1)
  | replace place x => replace (place + 1) x

/-- Behind one more element an edit has its effect one place farther on. -/
theorem perform?_shift (e : Edit κ) (z : κ) (xs : List κ) :
    e.shift.perform? (z :: xs) = (e.perform? xs).map (z :: ·) := by
  cases e with
  | insert place x =>
    simp only [shift, perform?, List.length_cons, Nat.add_le_add_iff_right,
      List.insertIdx_succ_cons]
    split <;> rfl
  | delete place =>
    simp only [shift, perform?, List.length_cons, Nat.add_lt_add_iff_right, List.eraseIdx_cons_succ]
    split <;> rfl
  | replace place x =>
    simp only [shift, perform?, List.length_cons, Nat.add_lt_add_iff_right, List.set_cons_succ]
    split <;> rfl

end Edit

/-! ### Scripts -/

/-- The list after all edits of a script; none if a place is missing on the way. -/
def performAll? (script : List (Edit κ)) (xs : List κ) : Option (List κ) :=
  script.foldlM (fun xs e ↦ e.perform? xs) xs

/-- The script turns the first list into the second. -/
def Turns (script : List (Edit κ)) (xs ys : List κ) : Prop := performAll? script xs = some ys

namespace Turns

variable {script : List (Edit κ)} {xs ys zs : List κ}

theorem nil_iff : Turns [] xs ys ↔ xs = ys := Option.some_inj

theorem cons_iff {e : Edit κ} :
    Turns (e :: script) xs zs ↔ ∃ ys, e.perform? xs = some ys ∧ Turns script ys zs := by
  rw [Turns, performAll?, List.foldlM_cons]
  exact Option.bind_eq_some_iff

/-- Scripts can be put one behind the other. -/
theorem append {more : List (Edit κ)} (h : Turns script xs ys) (hmore : Turns more ys zs) :
    Turns (script ++ more) xs zs := by
  rw [Turns, performAll?, List.foldlM_append]
  exact Option.bind_eq_some_iff.mpr ⟨ys, h, hmore⟩

/-- A script does its work behind one more element, one place farther on. -/
theorem shift (h : Turns script xs ys) (z : κ) :
    Turns (script.map Edit.shift) (z :: xs) (z :: ys) := by
  induction script generalizing xs with
  | nil => exact nil_iff.mpr (congrArg (z :: ·) (nil_iff.mp h))
  | cons e script ih =>
    obtain ⟨xs', hfirst, hrest⟩ := cons_iff.mp h
    refine cons_iff.mpr ⟨z :: xs', ?_, ih hrest⟩
    rw [Edit.perform?_shift, hfirst, Option.map_some]

theorem insert_front (x : κ) (xs : List κ) : Turns [.insert 0 x] xs (x :: xs) := rfl

theorem delete_front (x : κ) (xs : List κ) : Turns [.delete 0] (x :: xs) xs := rfl

theorem replace_front (x y : κ) (xs : List κ) : Turns [.replace 0 y] (x :: xs) (y :: xs) := rfl

/-- One more edit deletes an element that the first list has in front. -/
theorem exists_delete {n : ℕ} (x : κ) (h : ∃ script, Turns script xs ys ∧ script.length = n) :
    ∃ script, Turns script (x :: xs) ys ∧ script.length = n + 1 := by
  obtain ⟨script, hturns, hlength⟩ := h
  refine ⟨.delete 0 :: script, (delete_front x xs).append hturns, ?_⟩
  rw [List.length_cons, hlength]

/-- One more edit inserts an element that the second list has in front. -/
theorem exists_insert {n : ℕ} (y : κ) (h : ∃ script, Turns script xs ys ∧ script.length = n) :
    ∃ script, Turns script xs (y :: ys) ∧ script.length = n + 1 := by
  obtain ⟨script, hturns, hlength⟩ := h
  refine ⟨script ++ [.insert 0 y], hturns.append (insert_front y ys), ?_⟩
  rw [List.length_append, List.length_singleton, hlength]

end Turns

variable [DecidableEq κ]

instance Turns.decidable (script : List (Edit κ)) (xs ys : List κ) :
    Decidable (Turns script xs ys) :=
  inferInstanceAs (Decidable (performAll? script xs = some ys))

/-- Some script is as long as the edit distance. -/
theorem exists_script (xs ys : List κ) :
    ∃ script, Turns script xs ys ∧ script.length = distance xs ys := by
  induction xs generalizing ys with
  | nil =>
    induction ys with
    | nil => exact ⟨[], Turns.nil_iff.mpr rfl, rfl⟩
    | cons y ys ih =>
      rw [distance_nil_left] at ih ⊢
      exact Turns.exists_insert y ih
  | cons x xs ihx =>
    induction ys with
    | nil =>
      have hrest := ihx []
      rw [distance_nil_right] at hrest ⊢
      exact Turns.exists_delete x hrest
    | cons y ys ihy =>
      rcases distance_cons_cons_cases x y xs ys with hdelete | hinsert | hboth
      · rw [hdelete]
        exact Turns.exists_delete x (ihx (y :: ys))
      · rw [hinsert]
        exact Turns.exists_insert y ihy
      · rw [hboth]
        obtain ⟨script, hturns, hlength⟩ := ihx ys
        by_cases hxy : x = y
        · subst hxy
          refine ⟨script.map Edit.shift, hturns.shift x, ?_⟩
          rw [List.length_map, hlength, if_pos rfl, Nat.add_zero]
        · refine ⟨.replace 0 y :: script.map Edit.shift,
            (Turns.replace_front x y xs).append (hturns.shift y), ?_⟩
          rw [List.length_cons, List.length_map, hlength, if_neg hxy]

/-! ### How far an edit moves a list -/

/-- The first list is by no more than `k` farther from any third list than the second one. -/
def Within (k : ℕ) (xs ys : List κ) : Prop := ∀ zs, distance xs zs ≤ distance ys zs + k

namespace Within

variable {k l : ℕ} {xs ys zs : List κ}

theorem refl (xs : List κ) : Within 0 xs xs := fun _ ↦ le_rfl

theorem trans (hxy : Within k xs ys) (hyz : Within l ys zs) : Within (k + l) xs zs := by
  intro ws
  have hfirst := hxy ws
  have hsecond := hyz ws
  omega

/-- A list moves by no more than one when its first element is deleted. -/
theorem delete_front (x : κ) (xs : List κ) : Within 1 (x :: xs) xs :=
  fun zs ↦ distance_cons_left_le x xs zs

/-- A list moves by no more than one when an element is inserted in front. -/
theorem insert_front (x : κ) (xs : List κ) : Within 1 xs (x :: xs) := by
  intro zs
  induction zs with
  | nil =>
    rw [distance_nil_right, distance_nil_right, List.length_cons]
    omega
  | cons z zs ih =>
    have hinsert := distance_cons_right_le xs z zs
    rcases distance_cons_cons_cases x z xs zs with hcase | hcase | hcase <;> omega

/-- New first elements move two lists by no more than one, and by nothing if they are the same. -/
theorem cons (h : Within k xs ys) (x y : κ) :
    Within (k + if x = y then 0 else 1) (x :: xs) (y :: ys) := by
  intro zs
  induction zs with
  | nil =>
    have hnil := h []
    rw [distance_nil_right, distance_nil_right] at hnil ⊢
    rw [List.length_cons, List.length_cons]
    omega
  | cons z zs ih =>
    have hdelete := distance_cons_left_le x xs (z :: zs)
    have hinsert := distance_cons_right_le (x :: xs) z zs
    have hboth := distance_cons_cons_le x z xs zs
    -- Where `y` is kept as `z`, either `x` is kept too, or it differs from `y` as well.
    have hcost : (if x = z then 0 else 1) ≤
        (if x = y then 0 else 1) + if y = z then 0 else 1 := by
      split_ifs <;> simp_all
    rcases distance_cons_cons_cases y z ys zs with hcase | hcase | hcase
    · have hrest := h (z :: zs)
      omega
    · omega
    · have hrest := h zs
      omega

/-- A list moves by no more than one when its first element is replaced. -/
theorem replace_front (x y : κ) (xs : List κ) : Within 1 (x :: xs) (y :: xs) := by
  intro zs
  have hcons := (refl xs).cons x y zs
  split at hcons <;> omega

/-- What stands in front of two lists does not move them. -/
theorem append_left (h : Within k xs ys) (front : List κ) :
    Within k (front ++ xs) (front ++ ys) := by
  induction front with
  | nil => exact h
  | cons x front ih =>
    have hcons := ih.cons x x
    rwa [if_pos rfl, Nat.add_zero] at hcons

end Within

/-- An edit moves a list by no more than one. -/
theorem Edit.within_of_perform? {e : Edit κ} {xs ys : List κ} (h : e.perform? xs = some ys) :
    Within 1 xs ys := by
  have hsplit {place : ℕ} (hplace : place < xs.length) :
      xs.take place ++ xs[place] :: xs.drop (place + 1) = xs := by
    rw [← List.drop_eq_getElem_cons hplace, List.take_append_drop]
  cases e with
  | insert place x =>
    obtain ⟨hplace, hys⟩ := Option.ite_none_right_eq_some.mp h
    obtain ⟨front, back, hxs, -, hinsert⟩ := List.exists_of_modifyTailIdx (List.cons x) hplace
    rw [← Option.some.inj hys, List.insertIdx, hinsert, hxs]
    exact (Within.insert_front x back).append_left front
  | delete place =>
    obtain ⟨hplace, hys⟩ := Option.ite_none_right_eq_some.mp h
    have hwithin := (Within.delete_front xs[place] (xs.drop (place + 1))).append_left
      (xs.take place)
    rwa [hsplit hplace, ← List.eraseIdx_eq_take_drop_succ, Option.some.inj hys] at hwithin
  | replace place x =>
    obtain ⟨hplace, hys⟩ := Option.ite_none_right_eq_some.mp h
    have hset : xs.set place x = xs.take place ++ x :: xs.drop (place + 1) := by
      rw [List.set_eq_take_append_cons_drop, if_pos hplace]
    have hwithin := (Within.replace_front xs[place] x (xs.drop (place + 1))).append_left
      (xs.take place)
    rwa [hsplit hplace, ← hset, Option.some.inj hys] at hwithin

/-- A script moves a list by no more than its length. -/
theorem Turns.within {script : List (Edit κ)} {xs ys : List κ} (h : Turns script xs ys) :
    Within script.length xs ys := by
  induction script generalizing xs with
  | nil =>
    obtain rfl := nil_iff.mp h
    exact Within.refl xs
  | cons e script ih =>
    obtain ⟨xs', hfirst, hrest⟩ := cons_iff.mp h
    rw [List.length_cons, Nat.add_comm]
    exact (Edit.within_of_perform? hfirst).trans (ih hrest)

/-! ### The edit distance as a metric -/

/-- Nothing must be changed exactly if the lists are equal. -/
theorem distance_eq_zero_iff {xs ys : List κ} : distance xs ys = 0 ↔ xs = ys := by
  constructor
  · intro h
    obtain ⟨script, hturns, hlength⟩ := exists_script xs ys
    obtain rfl := List.length_eq_zero_iff.mp (hlength.trans h)
    exact Turns.nil_iff.mp hturns
  · rintro rfl
    exact distance_self xs

/-- The way over a third list is no shorter. -/
theorem distance_triangle (xs ys zs : List κ) :
    distance xs zs ≤ distance xs ys + distance ys zs := by
  obtain ⟨script, hturns, hlength⟩ := exists_script xs ys
  have hwithin := hturns.within zs
  omega

/-- The edit distance of two lists is the least number of insertions, deletions and replacements of
single elements that turn the one into the other. It is a metric: zero between equal lists only, the
same from either side, and never longer than the way over a third list. -/
theorem isLeast_distance :
    (∀ xs ys : List κ,
      IsLeast {n | ∃ script : List (Edit κ), Turns script xs ys ∧ script.length = n}
        (distance xs ys)) ∧
    (∀ xs ys : List κ, distance xs ys = 0 ↔ xs = ys) ∧
    (∀ xs ys : List κ, distance xs ys = distance ys xs) ∧
    ∀ xs ys zs : List κ, distance xs zs ≤ distance xs ys + distance ys zs := by
  refine ⟨fun xs ys ↦ ⟨exists_script xs ys, ?_⟩, fun xs ys ↦ distance_eq_zero_iff, distance_comm,
    distance_triangle⟩
  rintro n ⟨script, hturns, rfl⟩
  have hwithin := hturns.within ys
  rwa [distance_self, Nat.zero_add] at hwithin

/-- A call that comes first on one side and last on the other is deleted and inserted. -/
example :
    distance ["call", "if", "return"] ["if", "return", "call"] = 2 ∧
      Turns [.delete 0, .insert 2 "call"] ["call", "if", "return"] ["if", "return", "call"] := by
  decide +kernel

end NearClone.EditDistance
