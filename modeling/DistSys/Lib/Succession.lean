import Mathlib.Data.Nat.Init

/-!
# A thing that passes from holder to holder

A fixed schedule says who holds a thing in each epoch (`holder n`; nobody at first, somebody from
some epoch on). Each party goes through the epochs at its own pace and is now in epoch `pos a`. It
`got` the thing for an epoch when it has received it, and it only leaves an epoch after that. The
one rule that ties the parties together is `handed`: a party gets the thing from the holder before
it only after that one has entered the new epoch.

* `Succession.passed` — when a party has the thing, every earlier holder has left its epoch.
* `Succession.unique` — at most one party has the thing in its own present epoch.
* `Succession.finished` — while somebody has it, no handover is under way.
* `Succession.untouched` — before the first holder enters its epoch nobody has had it.
-/

namespace DistSys

variable {γ : Type*}

structure Succession (holder : ℕ → Option γ) (pos : γ → ℕ) (got : γ → ℕ → Prop) : Prop where
  held : ∀ {n a}, holder n = some a → ∃ b, holder (n + 1) = some b
  got_of_lt : ∀ {n a}, n < pos a → got a n
  le_of_got : ∀ {n a}, got a n → n ≤ pos a
  handed : ∀ {n a b}, holder n = some a → holder (n + 1) = some b → a ≠ b → got b (n + 1) →
    n + 1 ≤ pos a

namespace Succession

variable {holder : ℕ → Option γ} {pos : γ → ℕ} {got : γ → ℕ → Prop} {a b c : γ} {n m : ℕ}

theorem held_of_le (h : Succession holder pos got) (ha : holder n = some a) (hle : n ≤ m) :
    ∃ b, holder m = some b := by
  induction m, hle using Nat.le_induction with
  | base => exact ⟨a, ha⟩
  | succ m _ ih =>
    obtain ⟨b, hb⟩ := ih
    exact h.held hb

/-- The holder of an epoch has left it when somebody has the thing for a later one. -/
theorem passed (h : Succession holder pos got) (hb : holder n = some b) (hgot : got b n)
    (hm : m < n) (ha : holder m = some a) : m < pos a := by
  -- on the way back from `n`, every holder has moved into the epoch after its own
  induction n generalizing b with
  | zero => exact absurd hm (Nat.not_lt_zero m)
  | succ n ih =>
    obtain ⟨c, hc⟩ := h.held_of_le ha (Nat.le_of_lt_succ hm)
    have hpos : n + 1 ≤ pos c := by
      by_cases hcb : c = b
      · subst hcb
        exact h.le_of_got hgot
      · exact h.handed hc hb hcb hgot
    rcases Nat.lt_or_eq_of_le (Nat.le_of_lt_succ hm) with hlt | rfl
    · exact ih hc (h.got_of_lt hpos) hlt
    · rw [ha, Option.some.injEq] at hc
      subst hc
      exact hpos

theorem unique (h : Succession holder pos got) (ha : holder (pos a) = some a)
    (hga : got a (pos a)) (hb : holder (pos b) = some b) (hgb : got b (pos b)) : a = b := by
  rcases Nat.lt_trichotomy (pos a) (pos b) with hlt | heq | hlt
  · exact absurd (h.passed hb hgb hlt ha) (Nat.lt_irrefl _)
  · rw [heq, hb, Option.some.injEq] at ha
    exact ha.symm
  · exact absurd (h.passed ha hga hlt hb) (Nat.lt_irrefl _)

theorem finished (h : Succession holder pos got) (ha : holder (pos a) = some a)
    (hga : got a (pos a)) (hc : holder n = some c) (hb : holder (n + 1) = some b)
    (hle : n + 1 ≤ pos c) : got b (n + 1) := by
  rcases Nat.lt_trichotomy (pos a) (n + 1) with hlt | heq | hlt
  · -- the holder before the handover has entered the new epoch, so `a` is not behind it
    exfalso
    rcases Nat.lt_or_eq_of_le (Nat.le_of_lt_succ hlt) with hlt' | heq
    · exact absurd (h.passed hc (h.got_of_lt hle) hlt' ha) (Nat.lt_irrefl _)
    · rw [heq, hc, Option.some.injEq] at ha
      subst ha
      omega
  · rw [heq, hb, Option.some.injEq] at ha
    subst ha
    exact heq ▸ hga
  · exact h.got_of_lt (h.passed ha hga hlt hb)

theorem untouched (h : Succession holder pos got) (hn : holder n = none)
    (hb : holder (n + 1) = some b) (hle : pos b ≤ n) (hc : holder m = some c) : ¬ got c m := by
  intro hgot
  rcases Nat.lt_trichotomy m (n + 1) with hlt | rfl | hlt
  · obtain ⟨d, hd⟩ := h.held_of_le hc (Nat.le_of_lt_succ hlt)
    rw [hn] at hd
    cases hd
  · rw [hb, Option.some.injEq] at hc
    subst hc
    have := h.le_of_got hgot
    omega
  · have := h.passed hc hgot hlt hb
    omega

end Succession

end DistSys
