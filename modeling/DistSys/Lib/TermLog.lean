import Mathlib.Data.List.Basic
import Mathlib.Data.List.TakeDrop
import Mathlib.Data.Int.Order.Basic

/-!
# Logs whose entries carry a term

A log is a list of entries, numbered from 1; index 0 stands for the empty prefix and has the
term `-1`. `termAt L i` is the term at index `i`. Agreement of two logs is expressed by the
prefix order `<+:` on their initial segments.

`Ascending L t` says that terms do not decrease along a segment and end at most at `t`.

`adopt A P` is what a log `A` becomes when it takes over the segment `P` of another log: it is
left alone if it already begins with `P`, and replaced by `P` otherwise.
-/

namespace DistSys

/-- Entries with a term. -/
class Termed (E : Type*) where
  term : E → ℤ

variable {E : Type*} [Termed E]

/-- The term at index `i`, counted from 1. -/
def termAt (L : List E) : ℕ → ℤ
  | 0 => -1
  | i + 1 => (L[i]?.map Termed.term).getD (-1)

def lastTerm (L : List E) : ℤ := termAt L L.length

@[simp] theorem termAt_zero (L : List E) : termAt L 0 = -1 := rfl

theorem termAt_succ (L : List E) (i : ℕ) :
    termAt L (i + 1) = (L[i]?.map Termed.term).getD (-1) := rfl

theorem termAt_of_getElem? {L : List E} {i : ℕ} {e : E} (h : L[i]? = some e) :
    termAt L (i + 1) = Termed.term e := by
  rw [termAt_succ, h]
  rfl

theorem termAt_of_isPrefix {L M : List E} (h : L <+: M) {i : ℕ} (hi : i ≤ L.length) :
    termAt L i = termAt M i := by
  cases i with
  | zero => rfl
  | succ i =>
    obtain ⟨X, rfl⟩ := h
    rw [termAt_succ, termAt_succ, List.getElem?_append_left (by omega)]

theorem termAt_take {L : List E} {i k : ℕ} (hi : i ≤ k) : termAt (L.take k) i = termAt L i := by
  cases i with
  | zero => rfl
  | succ i => rw [termAt_succ, termAt_succ, List.getElem?_take_of_lt (by omega)]

theorem termAt_append_last (L : List E) (e : E) :
    termAt (L ++ [e]) (L.length + 1) = Termed.term e :=
  termAt_of_getElem? (by simp)

omit [Termed E] in
theorem take_eq_take_of_isPrefix {L M : List E} (h : L <+: M) {i : ℕ} (hi : i ≤ L.length) :
    L.take i = M.take i := by
  obtain ⟨X, rfl⟩ := h
  rw [List.take_append_of_le_length hi]

omit [Termed E] in
/-- Two initial segments of one log are comparable. -/
theorem prefix_of_le {X Y L : List E} (hX : X <+: L) (hY : Y <+: L)
    (h : X.length ≤ Y.length) : X <+: Y :=
  List.prefix_of_prefix_length_le hX hY h

omit [Termed E] in
theorem le_length_concat {L : List E} {e : E} {i : ℕ} (h : i ≤ (L ++ [e]).length) :
    i ≤ L.length ∨ i = L.length + 1 := by
  rw [List.length_append, List.length_singleton] at h
  omega

/-! ## Terms up to a bound -/

/-- No entry of `L` has a term above `t`. -/
def Within (L : List E) (t : ℤ) : Prop := ∀ i, 1 ≤ i → i ≤ L.length → termAt L i ≤ t

theorem Within.of_isPrefix {L M : List E} {t : ℤ} (h : Within M t) (hp : L <+: M) :
    Within L t := by
  intro i hi hlen
  rw [termAt_of_isPrefix hp hlen]
  exact h i hi (Nat.le_trans hlen hp.length_le)

theorem Within.concat {L : List E} {t : ℤ} (h : Within L t) {e : E} (he : Termed.term e ≤ t) :
    Within (L ++ [e]) t := by
  intro i hi hlen
  rcases le_length_concat hlen with hle | rfl
  · rw [← termAt_of_isPrefix (List.prefix_append L [e]) hle]
    exact h i hi hle
  · rw [termAt_append_last]
    exact he

/-! ## Terms in order -/

/-- The terms along `L` do not decrease, and end at most at `t`. -/
structure Ascending (L : List E) (t : ℤ) : Prop where
  sorted : L.Pairwise fun e e' => Termed.term e ≤ Termed.term e'
  le : ∀ e ∈ L, Termed.term e ≤ t

namespace Ascending

variable {L L₁ : List E} {t t' : ℤ}

theorem singleton {e : E} (h : Termed.term e ≤ t) : Ascending [e] t where
  sorted := List.pairwise_singleton _ _
  le e' he' := by
    rw [List.mem_singleton.1 he']
    exact h

theorem mono (h : Ascending L t) (ht : t ≤ t') : Ascending L t' :=
  ⟨h.sorted, fun e he => Int.le_trans (h.le e he) ht⟩

theorem drop (h : Ascending L t) (k : ℕ) : Ascending (L.drop k) t :=
  ⟨h.sorted.sublist (List.drop_sublist k L), fun e he => h.le e (List.mem_of_mem_drop he)⟩

/-- An entry of the highest term on top. -/
theorem concat {e : E} (h : Ascending L (Termed.term e)) :
    Ascending (L ++ [e]) (Termed.term e) where
  sorted := List.pairwise_append.2 ⟨h.sorted, List.pairwise_singleton _ _, fun a ha b hb => by
    rw [List.mem_singleton.1 hb]
    exact h.le a ha⟩
  le a ha := by
    rcases List.mem_append.1 ha with ha | ha
    · exact h.le a ha
    · rw [List.mem_singleton.1 ha]

/-- Of the first element only the term counts. -/
theorem cons_congr {p p' : E} (h : Ascending (p :: L) t)
    (hterm : Termed.term p = Termed.term p') : Ascending (p' :: L) t where
  sorted := by
    obtain ⟨hp, hL⟩ := List.pairwise_cons.1 h.sorted
    exact List.pairwise_cons.2 ⟨fun e he => hterm ▸ hp e he, hL⟩
  le e he := by
    rcases List.mem_cons.1 he with rfl | he
    · rw [← hterm]
      exact h.le p List.mem_cons_self
    · exact h.le e (List.mem_cons_of_mem p he)

/-- The terms of a segment that ends at position `m` are at most the one there. -/
theorem le_of_mem_take (h : Ascending L t) {m : ℕ} {p e : E} (hp : L[m]? = some p)
    (he : e ∈ L.take (m + 1)) : Termed.term e ≤ Termed.term p := by
  rw [List.take_add_one, hp] at he
  have hsorted := h.sorted.sublist (List.take_sublist (m + 1) L)
  rw [List.take_add_one, hp] at hsorted
  rcases List.mem_append.1 he with he | he
  · exact (List.pairwise_append.1 hsorted).2.2 e he p (List.mem_singleton_self p)
  · rw [List.mem_singleton.1 he]

theorem le_of_mem_drop (h : Ascending L t) {j : ℕ} {p e : E} (hp : L[j]? = some p)
    (he : e ∈ L.drop (j + 1)) : Termed.term p ≤ Termed.term e := by
  have hsorted := (h.drop j).sorted
  rw [List.drop_eq_getElem?_toList_append, hp] at hsorted
  exact (List.pairwise_cons.1 hsorted).1 e he

/-- Replacing what follows position `m` by the rest of another segment, whose element before has the
term of the one at `m`. -/
theorem splice (h : Ascending L t) (h₁ : Ascending L₁ t) {m j : ℕ} {p p₁ : E}
    (hp : L[m]? = some p) (hp₁ : L₁[j]? = some p₁) (hterm : Termed.term p = Termed.term p₁) :
    Ascending (L.take (m + 1) ++ L₁.drop (j + 1)) t where
  sorted := by
    refine List.pairwise_append.2 ⟨h.sorted.sublist (List.take_sublist _ L),
      (h₁.drop (j + 1)).sorted, fun e he e' he' => ?_⟩
    calc Termed.term e ≤ Termed.term p := h.le_of_mem_take hp he
      _ = Termed.term p₁ := hterm
      _ ≤ Termed.term e' := h₁.le_of_mem_drop hp₁ he'
  le e he := by
    rcases List.mem_append.1 he with he | he
    · exact h.le e (List.mem_of_mem_take he)
    · exact h₁.le e (List.mem_of_mem_drop he)

end Ascending

/-! ## Adopting a segment -/

open Classical in
/-- `A` after taking over the segment `P`. -/
noncomputable def adopt (A P : List E) : List E := if P <+: A then A else P

omit [Termed E] in
theorem adopt_of_isPrefix {A P : List E} (h : P <+: A) : adopt A P = A := if_pos h

omit [Termed E] in
theorem adopt_of_not_isPrefix {A P : List E} (h : ¬ P <+: A) : adopt A P = P := if_neg h

omit [Termed E] in
theorem adopt_cases (A P : List E) : adopt A P = A ∨ adopt A P = P := by
  by_cases h : P <+: A
  · exact .inl (adopt_of_isPrefix h)
  · exact .inr (adopt_of_not_isPrefix h)

omit [Termed E] in
theorem isPrefix_adopt (A P : List E) : P <+: adopt A P := by
  by_cases h : P <+: A
  · rwa [adopt_of_isPrefix h]
  · exact (adopt_of_not_isPrefix h).symm ▸ List.prefix_rfl

omit [Termed E] in
/-- Taking over a segment of `L` keeps whatever the log already shared with `L`. -/
theorem isPrefix_adopt_of_isPrefix {X A L : List E} {k : ℕ} (hA : X <+: A) (hL : X <+: L) :
    X <+: adopt A (L.take k) := by
  by_cases h : L.take k <+: A
  · rwa [adopt_of_isPrefix h]
  · rw [adopt_of_not_isPrefix h]
    refine prefix_of_le hL (List.take_prefix k L) ?_
    by_contra hlt
    exact h ((prefix_of_le (List.take_prefix k L) hL (by omega)).trans hA)

end DistSys
