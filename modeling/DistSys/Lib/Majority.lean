import Mathlib.Data.Fintype.Card
import Mathlib.Tactic.Ring

/-!
# Majorities

A set of more than half of the members. Two majorities share a member, which is all that the
protocols of this development use about them.
-/

namespace DistSys

variable {S : Type*} [Fintype S]

/-- More than half of all members. -/
def Majority (Q : Finset S) : Prop := Fintype.card S < 2 * Q.card

theorem Majority.exists_common [DecidableEq S] {Q R : Finset S} (hQ : Majority Q)
    (hR : Majority R) : ∃ q, q ∈ Q ∧ q ∈ R := by
  by_contra hne
  push Not at hne
  have hdisj : Disjoint Q R := Finset.disjoint_left.2 hne
  have hcard : Q.card + R.card ≤ Fintype.card S := by
    rw [← Finset.card_union_of_disjoint hdisj]
    exact Finset.card_le_univ _
  unfold Majority at hQ hR
  omega

theorem Majority.nonempty {Q : Finset S} (hQ : Majority Q) : ∃ q, q ∈ Q := by
  by_contra hne
  push Not at hne
  have : Q = ∅ := Finset.eq_empty_of_forall_notMem hne
  rw [Majority, this, Finset.card_empty] at hQ
  omega

theorem majority_of_half_lt {Q : Finset S} {k : ℕ} (hk : Fintype.card S / 2 < k)
    (hQ : k ≤ Q.card) : Majority Q := by
  unfold Majority
  omega

end DistSys
