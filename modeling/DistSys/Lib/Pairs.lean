import Mathlib.Data.List.Nodup
import Mathlib.Data.Set.Finite.Basic

/-!
# Maps as lists of pairs

A finite map is a list of pairs with distinct keys. A key is deleted by a filter.

* `perm_cons_filter` — up to order, the list is the pair of a key and the list without the key.
* `Enumerates` — the list is one of the orders in which a loop can meet the pairs of a map. A loop
  that updates one entry for each pair has the same result in all of them
  (`Enumerates.foldl_update`).
-/

namespace DistSys

variable {α β : Type*} [DecidableEq α] {l : List (α × β)} {a a' : α} {b b' : β}

theorem mem_of_lookup_eq_some (h : l.lookup a = some b) : (a, b) ∈ l := by
  obtain ⟨l₁, l₂, rfl, -⟩ := List.lookup_eq_some_iff.1 h
  simp

theorem mem_filter_ne : (a', b) ∈ l.filter (fun p => p.1 ≠ a) ↔ (a', b) ∈ l ∧ a' ≠ a := by
  simp

theorem filter_ne_eq_self (h : a ∉ l.map Prod.fst) : l.filter (fun p => p.1 ≠ a) = l := by
  rw [List.filter_eq_self]
  intro p hp
  simp only [ne_eq, decide_not, Bool.not_eq_eq_eq_not, Bool.not_true, decide_eq_false_iff_not]
  rintro rfl
  exact h (List.mem_map.2 ⟨p, hp, rfl⟩)

/-- Up to order, the list is the pair of a key and the list without the key. -/
theorem perm_cons_filter (hl : (l.map Prod.fst).Nodup) (h : (a, b) ∈ l) :
    l.Perm ((a, b) :: l.filter fun p => p.1 ≠ a) := by
  induction l with
  | nil => cases h
  | cons p l ih =>
    rw [List.map_cons, List.nodup_cons] at hl
    rcases List.mem_cons.1 h with rfl | hmem
    · rw [List.filter_cons_of_neg (by simp), filter_ne_eq_self hl.1]
    · have hne : p.1 ≠ a := by
        rintro rfl
        exact hl.1 (List.mem_map.2 ⟨_, hmem, rfl⟩)
      rw [List.filter_cons_of_pos (by simp [hne])]
      exact ((ih hl.2 hmem).cons p).trans (List.Perm.swap _ _ _)

/-- A key has one value. -/
theorem value_unique (hl : (l.map Prod.fst).Nodup) (h : (a, b) ∈ l)
    (h' : (a, b') ∈ l) : b = b' := by
  rcases List.mem_cons.1 ((perm_cons_filter hl h).mem_iff.1 h') with heq | hmem
  · exact (Prod.mk.inj heq).2.symm
  · exact absurd rfl (mem_filter_ne.1 hmem).2

theorem lookup_eq_some_of_mem (hl : (l.map Prod.fst).Nodup) (h : (a, b) ∈ l) :
    l.lookup a = some b := by
  cases hget : l.lookup a with
  | none =>
    have hne := List.lookup_eq_none_iff.1 hget (a, b) h
    exact absurd hne (by simp)
  | some b' => rw [value_unique hl h (mem_of_lookup_eq_some hget)]

/-- An element and what is left when it is taken out of a list. -/
theorem exists_eraseIdx {γ : Type*} {l : List γ} {k : ℕ} {x : γ} (h : l[k]? = some x) :
    ∃ l₁ l₂, l = l₁ ++ x :: l₂ ∧ l.eraseIdx k = l₁ ++ l₂ := by
  obtain ⟨hk, rfl⟩ := List.getElem?_eq_some_iff.1 h
  refine ⟨l.take k, l.drop (k + 1), ?_, List.eraseIdx_eq_take_drop_succ l k⟩
  rw [List.getElem_cons_drop, List.take_append_drop]

/-! ## Loops over a map -/

/-- The list has the pairs of the map. -/
structure Enumerates (l : List (α × β)) (f : α → Option β) : Prop where
  nodup : (l.map Prod.fst).Nodup
  mem : ∀ a b, (a, b) ∈ l ↔ f a = some b

omit [DecidableEq α] in
theorem Enumerates.not_mem {f : α → Option β} (h : Enumerates l f) (ha : f a = none) :
    a ∉ l.map Prod.fst := by
  intro hmem
  obtain ⟨p, hp, rfl⟩ := List.mem_map.1 hmem
  rw [(h.mem p.1 p.2).1 hp] at ha
  cases ha

/-- Updates of one entry for each pair leave the other entries alone. -/
theorem foldl_update_of_not_mem {γ : Type*} (upd : γ → β → γ) {t : α → γ}
    (ha : a ∉ l.map Prod.fst) :
    l.foldl (fun t p => Function.update t p.1 (upd (t p.1) p.2)) t a = t a := by
  induction l generalizing t with
  | nil => rfl
  | cons p l ih =>
    rw [List.map_cons, List.mem_cons, not_or] at ha
    rw [List.foldl_cons, ih ha.2, Function.update_of_ne ha.1]

theorem foldl_update_of_mem {γ : Type*} (upd : γ → β → γ) {t : α → γ}
    (hl : (l.map Prod.fst).Nodup) (h : (a, b) ∈ l) :
    l.foldl (fun t p => Function.update t p.1 (upd (t p.1) p.2)) t a = upd (t a) b := by
  induction l generalizing t with
  | nil => cases h
  | cons p l ih =>
    rw [List.map_cons, List.nodup_cons] at hl
    rw [List.foldl_cons]
    rcases List.mem_cons.1 h with rfl | hmem
    · rw [foldl_update_of_not_mem upd hl.1, Function.update_self]
    · have hne : a ≠ p.1 := by
        rintro rfl
        exact hl.1 (List.mem_map.2 ⟨_, hmem, rfl⟩)
      rw [ih hl.2 hmem, Function.update_of_ne hne]

/-- The result of a loop that updates one entry for each pair. -/
theorem Enumerates.foldl_update {f : α → Option β} (h : Enumerates l f) {γ : Type*}
    (upd : γ → β → γ) (t : α → γ) (a : α) :
    l.foldl (fun t p => Function.update t p.1 (upd (t p.1) p.2)) t a =
      (f a).elim (t a) (upd (t a)) := by
  rcases ha : f a with _ | b
  · exact foldl_update_of_not_mem upd (h.not_mem ha)
  · exact foldl_update_of_mem upd h.nodup ((h.mem a b).2 ha)

omit [DecidableEq α] in
/-- A map with finitely many keys can be met in some order. -/
theorem exists_enumerates {f : α → Option β} (h : {a | f a ≠ none}.Finite) :
    ∃ l, Enumerates l f := by
  let pairs (keys : List α) : List (α × β) := keys.filterMap fun a => (f a).map (Prod.mk a)
  have hmem : ∀ keys a b, (a, b) ∈ pairs keys ↔ a ∈ keys ∧ f a = some b := by
    intro keys a b
    simp only [pairs, List.mem_filterMap, Option.map_eq_some_iff]
    constructor
    · rintro ⟨a', ha', b', hb', heq⟩
      cases heq
      exact ⟨ha', hb'⟩
    · rintro ⟨ha, hb⟩
      exact ⟨a, ha, b, hb, rfl⟩
  refine ⟨pairs h.toFinset.toList, ?_, fun a b => ?_⟩
  · have hsub : ((pairs h.toFinset.toList).map Prod.fst).Sublist h.toFinset.toList := by
      generalize h.toFinset.toList = keys
      induction keys with
      | nil => exact .slnil
      | cons a keys ih =>
        rcases ha : f a with _ | b
        · simpa [pairs, List.filterMap_cons, ha] using ih.cons a
        · simpa [pairs, List.filterMap_cons, ha] using ih.cons_cons a
    exact hsub.nodup h.toFinset.nodup_toList
  · rw [hmem, Finset.mem_toList, Set.Finite.mem_toFinset]
    exact and_iff_right_of_imp fun hb => by simp [hb]

end DistSys
