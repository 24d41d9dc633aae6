import NearClone.Listing.Assigned
import Mathlib.Data.List.Induction
import Mathlib.Data.List.Nodup

/-!
# Keys of association lists

Assigning one after the other leaves one entry for every key (`nodup_keys_assignAll`,
`mem_keys_assignAll`), the last one that was assigned to it (`mem_assignAll_iff`). Entries with
different keys stay as they are (`assignAll_of_nodup`), and values can be changed before or after
they are assigned (`assignAll_map`). To look a key up among different ones is to find its entry
(`lookup_eq_some_iff_mem`), whatever the order of the entries (`lookup_perm`). Where the keys of
entries are different and can be told from the items in them, the items of one entry can be selected
from those of all (`filter_flatMap_of_mem`).
-/

set_option autoImplicit false
set_option relaxedAutoImplicit false

namespace NearClone.Listing

variable {κ β γ : Type} [DecidableEq κ] {key name : κ} {value : β} {pairs : List (κ × β)}

/-- An assignment leaves an entry. -/
theorem assign_ne_nil (key : κ) (value : β) (pairs : List (κ × β)) :
    assign key value pairs ≠ [] := by
  cases pairs with
  | nil => exact List.cons_ne_nil _ _
  | cons p rest =>
    rw [assign]
    split <;> exact List.cons_ne_nil _ _

/-- A new key goes to the end, and a present one keeps its place. -/
theorem keys_assign (key : κ) (value : β) (pairs : List (κ × β)) :
    (assign key value pairs).map Prod.fst =
      if key ∈ pairs.map Prod.fst then pairs.map Prod.fst else pairs.map Prod.fst ++ [key] := by
  induction pairs with
  | nil => rfl
  | cons p rest ih =>
    obtain ⟨other, old⟩ := p
    rw [assign]
    by_cases hother : other = key
    · subst hother
      rw [if_pos rfl]
      exact (if_pos List.mem_cons_self).symm
    · have hmem : key ∈ ((other, old) :: rest).map Prod.fst ↔ key ∈ rest.map Prod.fst := by
        rw [List.map_cons, List.mem_cons, or_iff_right (Ne.symm hother)]
      rw [if_neg hother, List.map_cons, ih, apply_ite (List.cons other)]
      simp only [hmem]
      rfl

/-- An entry with a new key goes to the end. -/
theorem assign_of_not_mem_keys (h : key ∉ pairs.map Prod.fst) :
    assign key value pairs = pairs ++ [(key, value)] := by
  induction pairs with
  | nil => rfl
  | cons p rest ih =>
    obtain ⟨other, old⟩ := p
    rw [List.map_cons, List.mem_cons, not_or] at h
    rw [assign, if_neg (Ne.symm h.1), ih h.2, List.cons_append]

/-- A list with one entry for every key still is one after an assignment. -/
theorem nodup_keys_assign (h : (pairs.map Prod.fst).Nodup) :
    ((assign key value pairs).map Prod.fst).Nodup := by
  by_cases hold : key ∈ pairs.map Prod.fst
  · rwa [keys_assign, if_pos hold]
  · rw [keys_assign, if_neg hold]
    refine List.nodup_append.mpr ⟨h, List.nodup_singleton key, ?_⟩
    rintro name hname _ hkey rfl
    exact hold (List.mem_singleton.mp hkey ▸ hname)

/-- The keys after an assignment. -/
theorem mem_keys_assign :
    name ∈ (assign key value pairs).map Prod.fst ↔ name ∈ pairs.map Prod.fst ∨ name = key := by
  by_cases hold : key ∈ pairs.map Prod.fst
  · rw [keys_assign, if_pos hold]
    exact (or_iff_left_of_imp fun hname ↦ hname ▸ hold).symm
  · rw [keys_assign, if_neg hold, List.mem_append, List.mem_singleton]

/-- After an assignment the key has the new value, and the other keys have theirs. -/
theorem mem_assign_iff (h : (pairs.map Prod.fst).Nodup) {p : κ × β} :
    p ∈ assign key value pairs ↔ p = (key, value) ∨ p ∈ pairs ∧ p.1 ≠ key := by
  induction pairs with
  | nil => simp only [assign, List.mem_singleton, List.not_mem_nil, false_and, or_false]
  | cons q rest ih =>
    obtain ⟨other, old⟩ := q
    obtain ⟨hother, hrest⟩ := List.nodup_cons.mp h
    rw [assign]
    by_cases hkey : other = key
    · subst hkey
      have hne (hp : p ∈ rest) : p.1 ≠ other := fun heq ↦
        hother (List.mem_map.mpr ⟨p, hp, heq⟩)
      rw [if_pos rfl, List.mem_cons, List.mem_cons]
      refine or_congr_right ⟨fun hp ↦ ⟨Or.inr hp, hne hp⟩, fun hp ↦ hp.1.resolve_left ?_⟩
      rintro rfl
      exact hp.2 rfl
    · rw [if_neg hkey, List.mem_cons, List.mem_cons, ih hrest]
      constructor
      · rintro (rfl | rfl | ⟨hp, hne⟩)
        · exact Or.inr ⟨Or.inl rfl, hkey⟩
        · exact Or.inl rfl
        · exact Or.inr ⟨Or.inr hp, hne⟩
      · rintro (rfl | ⟨rfl | hp, hne⟩)
        · exact Or.inr (Or.inl rfl)
        · exact Or.inl rfl
        · exact Or.inr (Or.inr ⟨hp, hne⟩)

/-! ### One assignment after the other -/

/-- The last assignment comes after all others. -/
theorem assignAll_concat (pairs : List (κ × β)) (p : κ × β) :
    assignAll (pairs ++ [p]) = assign p.1 p.2 (assignAll pairs) :=
  List.foldl_concat ..

/-- There is one entry for every key. -/
theorem nodup_keys_assignAll (pairs : List (κ × β)) :
    ((assignAll pairs).map Prod.fst).Nodup := by
  induction pairs using List.reverseRecOn with
  | nil => exact List.nodup_nil
  | append_singleton pairs p ih =>
    rw [assignAll_concat]
    exact nodup_keys_assign ih

/-- The keys are those that were assigned. -/
theorem mem_keys_assignAll : name ∈ (assignAll pairs).map Prod.fst ↔ name ∈ pairs.map Prod.fst := by
  induction pairs using List.reverseRecOn with
  | nil => rfl
  | append_singleton pairs p ih =>
    rw [assignAll_concat, mem_keys_assign, ih, List.map_append, List.mem_append, List.map_singleton,
      List.mem_singleton]

/-- The entry of a key is the last one that was assigned to it. -/
theorem mem_assignAll_iff {p : κ × β} :
    p ∈ assignAll pairs ↔ (pairs.filter fun q ↦ q.1 = p.1).getLast? = some p := by
  induction pairs using List.reverseRecOn with
  | nil => exact iff_of_false List.not_mem_nil (Option.some_ne_none p).symm
  | append_singleton pairs q ih =>
    rw [assignAll_concat, mem_assign_iff (nodup_keys_assignAll pairs), ih, List.filter_append,
      List.filter_singleton]
    by_cases hkey : q.1 = p.1
    · rw [decide_eq_true hkey, cond_true, List.getLast?_concat, Option.some.injEq, eq_comm]
      exact or_iff_left fun h ↦ h.2 hkey.symm
    · rw [decide_eq_false hkey, cond_false, List.append_nil, and_iff_left (Ne.symm hkey)]
      exact or_iff_right fun h ↦ hkey (congrArg Prod.fst h).symm

/-- Every entry was assigned. -/
theorem mem_of_mem_assignAll {p : κ × β} (h : p ∈ assignAll pairs) : p ∈ pairs :=
  List.mem_of_mem_filter (List.mem_of_getLast? (mem_assignAll_iff.mp h))

/-- Entries that already have different keys stay as they are. -/
theorem assignAll_of_nodup (h : (pairs.map Prod.fst).Nodup) : assignAll pairs = pairs := by
  induction pairs using List.reverseRecOn with
  | nil => rfl
  | append_singleton pairs p ih =>
    rw [List.map_append, List.map_singleton, List.nodup_append] at h
    have hnew : p.1 ∉ pairs.map Prod.fst := fun hold ↦
      h.2.2 p.1 hold p.1 (List.mem_singleton_self _) rfl
    rw [assignAll_concat, ih h.1, assign_of_not_mem_keys hnew]

/-- To assign values and then change all of them is to assign the changed values. -/
theorem assign_map (f : β → γ) (key : κ) (value : β) (pairs : List (κ × β)) :
    assign key (f value) (pairs.map (Prod.map id f)) =
      (assign key value pairs).map (Prod.map id f) := by
  induction pairs with
  | nil => rfl
  | cons p rest ih =>
    obtain ⟨other, old⟩ := p
    rw [List.map_cons, Prod.map_apply, id, assign, assign, ih, apply_ite (List.map _)]
    rfl

/-- To assign changed values one after the other is to change those that have been assigned. -/
theorem assignAll_map (f : β → γ) (pairs : List (κ × β)) :
    assignAll (pairs.map (Prod.map id f)) = (assignAll pairs).map (Prod.map id f) := by
  induction pairs using List.reverseRecOn with
  | nil => rfl
  | append_singleton pairs p ih =>
    rw [List.map_append, List.map_singleton, assignAll_concat, assignAll_concat, ih]
    exact assign_map f p.1 p.2 _

/-! ### Look-ups -/

/-- Where keys are different, the value of a key is that of its entry. -/
theorem lookup_eq_some_iff_mem (h : (pairs.map Prod.fst).Nodup) :
    pairs.lookup name = some value ↔ (name, value) ∈ pairs := by
  induction pairs with
  | nil => exact iff_of_false (fun h ↦ nomatch h) List.not_mem_nil
  | cons p rest ih =>
    obtain ⟨other, old⟩ := p
    obtain ⟨hother, hrest⟩ := List.nodup_cons.mp h
    rw [List.lookup_cons, List.mem_cons, Prod.mk.injEq]
    by_cases hname : name = other
    · subst hname
      have hnew : (name, value) ∉ rest := fun hmem ↦
        hother (List.mem_map.mpr ⟨(name, value), hmem, rfl⟩)
      rw [beq_self_eq_true, Option.some.injEq, or_iff_left hnew, eq_comm]
      exact (and_iff_right rfl).symm
    · rw [beq_false_of_ne hname, or_iff_right fun hsame ↦ hname hsame.1]
      exact ih hrest

/-- Of different keys the order does not count. -/
theorem lookup_perm {pairs' : List (κ × β)} (h : pairs'.Perm pairs)
    (hpairs : (pairs.map Prod.fst).Nodup) (name : κ) :
    pairs'.lookup name = pairs.lookup name := by
  have hpairs' : (pairs'.map Prod.fst).Nodup := (h.map Prod.fst).nodup_iff.mpr hpairs
  ext value
  rw [lookup_eq_some_iff_mem hpairs', lookup_eq_some_iff_mem hpairs, h.mem_iff]

/-- Different keys can as well be looked up from the end. -/
theorem lookup_reverse (h : (pairs.map Prod.fst).Nodup) (name : κ) :
    pairs.reverse.lookup name = pairs.lookup name :=
  lookup_perm (List.reverse_perm pairs) h name

/-- Of different keys those are found whose values pass a test. -/
theorem lookup_filter (h : (pairs.map Prod.fst).Nodup) (test : β → Bool) (name : κ) :
    (pairs.filter fun p ↦ test p.2).lookup name = (pairs.lookup name).filter test := by
  have hfilter : ((pairs.filter fun p ↦ test p.2).map Prod.fst).Nodup :=
    h.sublist (List.filter_sublist.map Prod.fst)
  ext value
  rw [lookup_eq_some_iff_mem hfilter, List.mem_filter, Option.filter_eq_some_iff,
    lookup_eq_some_iff_mem h]

/-- The last assignment to a key counts. -/
theorem lookup_assignAll (pairs : List (κ × β)) (name : κ) :
    (assignAll pairs).lookup name = pairs.reverse.lookup name := by
  induction pairs using List.reverseRecOn with
  | nil => rfl
  | append_singleton pairs p ih =>
    rw [assignAll_concat, List.reverse_append, List.reverse_singleton, List.singleton_append,
      List.lookup_cons]
    by_cases hname : name = p.1
    · rw [hname, lookup_assign_self, beq_self_eq_true]
    · rw [lookup_assign_of_ne hname, beq_false_of_ne hname, ih]

/-- Of two lists that are assigned one after the other, each with different keys, the second one
comes first. -/
theorem lookup_assignAll_append {others : List (κ × β)} (h : (pairs.map Prod.fst).Nodup)
    (hothers : (others.map Prod.fst).Nodup) (name : κ) :
    (assignAll (pairs ++ others)).lookup name = (others.lookup name).or (pairs.lookup name) := by
  rw [lookup_assignAll, List.reverse_append, List.lookup_append, lookup_reverse h,
    lookup_reverse hothers]

/-! ### Items of entries -/

/-- The items of one entry are those with its key among the items of all entries. -/
theorem filter_flatMap_of_mem {items : κ × β → List γ} {keyOf : γ → κ} {p : κ × β}
    (hkeys : (pairs.map Prod.fst).Nodup) (hitems : ∀ q ∈ pairs, ∀ x ∈ items q, keyOf x = q.1)
    (hp : p ∈ pairs) :
    (pairs.flatMap items).filter (fun x ↦ keyOf x = p.1) = items p := by
  obtain ⟨before, after, rfl⟩ := List.append_of_mem hp
  rw [List.map_append, List.map_cons, List.nodup_middle, List.nodup_cons, List.mem_append] at hkeys
  have hothers (others : List (κ × β)) (hsub : others ⊆ before ++ p :: after)
      (hother : p.1 ∉ others.map Prod.fst) :
      (others.flatMap items).filter (fun x ↦ keyOf x = p.1) = [] := by
    refine List.filter_eq_nil_iff.mpr fun x hx ↦ ?_
    obtain ⟨q, hq, hxq⟩ := List.mem_flatMap.mp hx
    rw [decide_eq_true_eq, hitems q (hsub hq) x hxq]
    exact fun hkey ↦ hother (hkey ▸ List.mem_map_of_mem hq)
  have hown : (items p).filter (fun x ↦ keyOf x = p.1) = items p :=
    List.filter_eq_self.mpr fun x hx ↦ decide_eq_true (hitems p hp x hx)
  rw [List.flatMap_append, List.flatMap_cons, List.filter_append, List.filter_append, hown,
    hothers before (List.subset_append_left _ _) fun h ↦ hkeys.1 (Or.inl h),
    hothers after (fun q hq ↦ List.mem_append_right _ (List.mem_cons_of_mem _ hq))
      fun h ↦ hkeys.1 (Or.inr h), List.nil_append, List.append_nil]

end NearClone.Listing
