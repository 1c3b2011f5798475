import DistSys.Lib.TermLog

/-!
# Logs linked to the creation of their entries

`o i t = some (p, e)` records that the entry `e` was created at index `i` with term `t`, on top of
an entry of term `p`. A segment `l` whose first element stands at index `b` is `Linked` when each
later element is the one on record at its index and term, on top of the term before it. The first
element needs no record: it may be a placeholder, of which only the term counts.

Since the record determines an entry and the term below it, two linked segments that have the same
term at some index agree from there down (`Linked.matching`).
-/

namespace DistSys

variable {E : Type*} [Termed E]

/-- Each element after the first is on record at its index. -/
def Linked (o : ℕ → ℤ → Option (ℤ × E)) (b : ℕ) (l : List E) : Prop :=
  ∀ r p e, l[r]? = some p → l[r + 1]? = some e →
    o (b + r + 1) (Termed.term e) = some (Termed.term p, e)

variable {o o' : ℕ → ℤ → Option (ℤ × E)} {b : ℕ} {l : List E}

theorem linked_singleton (e : E) : Linked o b [e] := fun r p e' _ h => by simp at h

theorem Linked.mono (h : Linked o b l) (ho : ∀ i t x, o i t = some x → o' i t = some x) :
    Linked o' b l :=
  fun r p e hp he => ho _ _ _ (h r p e hp he)

theorem Linked.drop (h : Linked o b l) (k : ℕ) : Linked o (b + k) (l.drop k) := by
  intro r p e hp he
  rw [List.getElem?_drop] at hp he
  have := h (k + r) p e hp he
  rwa [show b + (k + r) + 1 = b + k + r + 1 by omega] at this

/-- Every element after the first is on record. -/
theorem Linked.record (h : Linked o b l) {r : ℕ} {e : E} (he : l[r + 1]? = some e) :
    ∃ t, o (b + r + 1) (Termed.term e) = some (t, e) := by
  have hlt := (List.getElem?_eq_some_iff.1 he).1
  exact ⟨_, h r _ e (List.getElem?_eq_getElem (Nat.lt_of_succ_lt hlt)) he⟩

/-- Of the first element only the term counts. -/
theorem Linked.cons_congr {p p' : E} (h : Linked o b (p :: l))
    (hterm : Termed.term p = Termed.term p') : Linked o b (p' :: l) := by
  intro r q e hq he
  cases r with
  | zero =>
    cases hq
    rw [← hterm]
    exact h 0 p e rfl he
  | succ r => exact h (r + 1) q e hq he

/-- A new entry on top. -/
theorem Linked.append (h : Linked o b l) {p e : E} (hp : l.getLast? = some p)
    (ho : o (b + l.length) (Termed.term e) = some (Termed.term p, e)) :
    Linked o b (l ++ [e]) := by
  intro r q f hq hf
  have hlen : l ≠ [] := by rintro rfl; simp at hp
  have hpos := List.length_pos_iff.2 hlen
  rcases Nat.lt_trichotomy (r + 1) l.length with hr | hr | hr
  · rw [List.getElem?_append_left (by omega)] at hq hf
    exact h r q f hq hf
  · rw [List.getElem?_append_left (by omega)] at hq
    rw [List.getElem?_append_right (by omega), hr, Nat.sub_self] at hf
    cases hf
    rw [List.getLast?_eq_getElem?, show l.length - 1 = r by omega, hq] at hp
    cases hp
    rwa [show b + r + 1 = b + l.length by omega]
  · rw [List.getElem?_eq_none (by simp; omega)] at hf
    cases hf

/-- Replacing what follows position `m` by the rest of another linked segment, whose element
before has the term of the one at `m`. -/
theorem Linked.splice (h : Linked o b l) {b₁ : ℕ} {l₁ : List E} (h₁ : Linked o b₁ l₁) {m j : ℕ}
    (hb : b + m = b₁ + j) {p p₁ : E} (hp : l[m]? = some p) (hp₁ : l₁[j]? = some p₁)
    (hterm : Termed.term p = Termed.term p₁) :
    Linked o b (l.take (m + 1) ++ l₁.drop (j + 1)) := by
  intro r q e hq he
  have hm : m < l.length := (List.getElem?_eq_some_iff.1 hp).1
  have hlen : (l.take (m + 1)).length = m + 1 := by rw [List.length_take]; omega
  rcases Nat.lt_trichotomy r m with hr | rfl | hr
  · rw [List.getElem?_append_left (by omega), List.getElem?_take_of_lt (by omega)] at hq he
    exact h r q e hq he
  · rw [List.getElem?_append_left (by omega), List.getElem?_take_of_lt (by omega), hp] at hq
    rw [List.getElem?_append_right (by omega), hlen, Nat.sub_self, List.getElem?_drop] at he
    cases hq
    rw [hterm, hb]
    exact h₁ j p₁ e hp₁ he
  · rw [List.getElem?_append_right (by omega), hlen, List.getElem?_drop] at hq he
    have := h₁ (j + (r - m)) q e
      (by rwa [show j + (r - m) = j + 1 + (r - (m + 1)) by omega])
      (by rwa [show j + (r - m) + 1 = j + 1 + (r + 1 - (m + 1)) by omega])
    rwa [show b + r + 1 = b₁ + (j + (r - m)) + 1 by omega]

/-- **Log Matching for linked segments.** The same term at the same index, and everything from
there down is the same, as far as both segments go. -/
theorem Linked.matching (h : Linked o b l) {b₁ : ℕ} {l₁ : List E} (h₁ : Linked o b₁ l₁)
    {r r₁ : ℕ} (hr : b + r = b₁ + r₁) {e e₁ : E} (he : l[r + 1]? = some e)
    (he₁ : l₁[r₁ + 1]? = some e₁) (hterm : Termed.term e = Termed.term e₁) :
    e = e₁ ∧ ∀ d, d ≤ r → d ≤ r₁ → l[r - d + 1]? = l₁[r₁ - d + 1]? := by
  have hpred : ∀ {l : List E} {r : ℕ} {e : E}, l[r + 1]? = some e → ∃ p, l[r]? = some p := by
    intro l r e he
    have hlt := (List.getElem?_eq_some_iff.1 he).1
    exact ⟨_, List.getElem?_eq_getElem (Nat.lt_of_succ_lt hlt)⟩
  have hone : ∀ {r r₁ : ℕ}, b + r = b₁ + r₁ → ∀ {e e₁ : E}, l[r + 1]? = some e →
      l₁[r₁ + 1]? = some e₁ → Termed.term e = Termed.term e₁ → e = e₁ ∧ ∃ p p₁,
        l[r]? = some p ∧ l₁[r₁]? = some p₁ ∧ Termed.term p = Termed.term p₁ := by
    intro r r₁ hr e e₁ he he₁ hterm
    obtain ⟨p, hp⟩ := hpred he
    obtain ⟨p₁, hp₁⟩ := hpred he₁
    have ho := h r p e hp he
    rw [hterm, hr, h₁ r₁ p₁ e₁ hp₁ he₁, Option.some.injEq, Prod.mk.injEq] at ho
    exact ⟨ho.2.symm, p, p₁, hp, hp₁, ho.1.symm⟩
  refine ⟨(hone hr he he₁ hterm).1, fun d => ?_⟩
  -- down from the shared term, one index at a time
  have hterms : ∀ d, d ≤ r → d ≤ r₁ → ∃ f f₁, l[r - d + 1]? = some f ∧
      l₁[r₁ - d + 1]? = some f₁ ∧ Termed.term f = Termed.term f₁ := by
    intro d
    induction d with
    | zero => exact fun _ _ => ⟨e, e₁, he, he₁, hterm⟩
    | succ d ih =>
      intro hd hd₁
      obtain ⟨f, f₁, hf, hf₁, hff⟩ := ih (by omega) (by omega)
      obtain ⟨-, p, p₁, hp, hp₁, hpp⟩ := hone (by omega) hf hf₁ hff
      refine ⟨p, p₁, ?_, ?_, hpp⟩
      · rwa [show r - (d + 1) + 1 = r - d by omega]
      · rwa [show r₁ - (d + 1) + 1 = r₁ - d by omega]
  intro hd hd₁
  obtain ⟨f, f₁, hf, hf₁, hff⟩ := hterms d hd hd₁
  rw [hf, hf₁, (hone (by omega) hf hf₁ hff).1]

end DistSys
