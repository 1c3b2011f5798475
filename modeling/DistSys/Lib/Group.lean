import Mathlib.Data.List.Nodup
import Mathlib.Order.Lattice

/-!
# Grouping a list by key

`groups` collects the runs of elements with the same key. On a list that is sorted by key there is
one group for each key, and it holds all values of the key.

* `groups_sorted`, `mem_keys_groups` — the groups of a sorted list.
* `groups_cons` — the first group, as a loop finds it.
-/

namespace DistSys

variable {α K V : Type*} [DecidableEq K] (key : α → K) (value : α → V)

/-- Each run of elements with the same key, as the key and the values. -/
def groups : List α → List (K × List V)
  | [] => []
  | a :: l =>
    match groups l with
    | [] => [(key a, [value a])]
    | (k, vs) :: gs =>
      if key a = k then (k, value a :: vs) :: gs else (key a, [value a]) :: (k, vs) :: gs

/-- The values of a key. -/
def valuesOf (k : K) (l : List α) : List V := (l.filter fun a => key a = k).map value

variable {key value}

@[simp] theorem groups_nil : groups key value [] = [] := rfl

/-- The first group is that of the first element: up to the first element with another key. -/
theorem groups_cons (a : α) (l : List α) :
    groups key value (a :: l) =
      (key a, value a :: (l.takeWhile fun b => key b = key a).map value) ::
        groups key value (l.dropWhile fun b => key b = key a) := by
  induction l generalizing a with
  | nil => rfl
  | cons b l ih =>
    rw [groups, ih b]
    by_cases hab : key b = key a
    · simp [hab]
    · simp [hab, Ne.symm hab, ih b]

theorem mem_keys_groups (k : K) (l : List α) :
    k ∈ (groups key value l).map Prod.fst ↔ k ∈ l.map key := by
  induction l with
  | nil => rfl
  | cons a l ih =>
    rw [List.map_cons, List.mem_cons, ← ih, groups]
    cases hg : groups key value l with
    | nil => simp
    | cons g gs =>
      obtain ⟨k', vs⟩ := g
      by_cases ha : key a = k'
      · simp [ha]
      · simp [ha]

theorem perm_valuesOf {l l' : List α} (h : l.Perm l') (k : K) :
    (valuesOf key value k l).Perm (valuesOf key value k l') :=
  (h.filter _).map _

theorem valuesOf_cons_self (a : α) (l : List α) :
    valuesOf key value (key a) (a :: l) = value a :: valuesOf key value (key a) l := by
  simp [valuesOf]

theorem valuesOf_cons_of_ne {a : α} {k : K} (h : key a ≠ k) (l : List α) :
    valuesOf key value k (a :: l) = valuesOf key value k l := by
  simp [valuesOf, h]

theorem valuesOf_eq_nil {k : K} {l : List α} (h : k ∉ l.map key) : valuesOf key value k l = [] := by
  rw [valuesOf, List.map_eq_nil_iff, List.filter_eq_nil_iff]
  intro a ha hk
  exact h (List.mem_map.2 ⟨a, ha, of_decide_eq_true hk⟩)

section
variable {K : Type*} [LinearOrder K] {key : α → K}

/-- In a sorted list the key of the first element is that of the next, or does not come again. -/
theorem notMem_keys_of_ne {a b : α} {l : List α}
    (hl : (a :: b :: l).Pairwise fun x y => key x ≤ key y) (hab : key a ≠ key b) :
    key a ∉ (b :: l).map key := by
  rw [List.pairwise_cons, List.pairwise_cons] at hl
  have hlt : key a < key b := lt_of_le_of_ne (hl.1 b List.mem_cons_self) hab
  intro hmem
  obtain ⟨c, hc, hca⟩ := List.mem_map.1 hmem
  rcases List.mem_cons.1 hc with rfl | hc
  · exact hab hca.symm
  · exact absurd (hl.2.1 c hc) (not_le_of_gt (hca ▸ hlt))

/-- The groups of a sorted list, by induction on the list: each holds all values of its key, and no
key comes twice. -/
theorem groups_sorted [DecidableEq K] (value : α → V) {l : List α}
    (hl : l.Pairwise fun a b => key a ≤ key b) :
    (∀ g ∈ groups key value l, g.2 = valuesOf key value g.1 l) ∧
      ((groups key value l).map Prod.fst).Nodup := by
  induction l with
  | nil => simp
  | cons a l ih =>
    obtain ⟨hvalues, hnodup⟩ := ih hl.of_cons
    rw [groups]
    cases l with
    | nil => simp [valuesOf]
    | cons b l =>
      rw [groups_cons b l] at hvalues hnodup ⊢
      simp only
      have hhead := hvalues _ List.mem_cons_self
      simp only at hhead
      rw [List.map_cons, List.nodup_cons] at hnodup
      have hrest : ∀ g ∈ groups key value (l.dropWhile fun c => key c = key b), g.1 ≠ key b := by
        rintro g hg heq
        exact hnodup.1 (List.mem_map.2 ⟨g, hg, heq⟩)
      by_cases hab : key a = key b
      · rw [if_pos hab]
        refine ⟨fun g hg => ?_, List.nodup_cons.2 hnodup⟩
        rcases List.mem_cons.1 hg with rfl | hg
        · simp only
          rw [hhead, ← hab, valuesOf_cons_self]
        · rw [valuesOf_cons_of_ne (hab ▸ (hrest g hg).symm)]
          exact hvalues g (List.mem_cons_of_mem _ hg)
      · rw [if_neg hab]
        have hnot := notMem_keys_of_ne hl hab
        have hother : ∀ g ∈ groups key value (b :: l), g.1 ≠ key a := by
          rintro g hg heq
          exact hnot ((mem_keys_groups _ _).1 (List.mem_map.2 ⟨g, hg, heq⟩))
        rw [groups_cons b l] at hother
        refine ⟨fun g hg => ?_, List.nodup_cons.2 ⟨?_, List.nodup_cons.2 hnodup⟩⟩
        · rcases List.mem_cons.1 hg with rfl | hg
          · rw [valuesOf_cons_self, valuesOf_eq_nil hnot]
          · rw [valuesOf_cons_of_ne (hother g hg).symm]
            exact hvalues g hg
        · intro hmem
          obtain ⟨g, hg, hkey⟩ := List.mem_map.1 hmem
          exact hother g hg hkey

end

end DistSys
