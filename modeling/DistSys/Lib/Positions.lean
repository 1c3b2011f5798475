import DistSys.Lib.Linearizability
import Mathlib.Data.List.Sort

/-!
# Linearizability from a log

A service that orders its operations by a log is linearizable for what the entries of the log do to
an object, one after another. `g p` is the object after the first `p` entries.

An operation is *logged* at its position, and takes the object from `g p` to `g (p + 1)`; or it only
looks at the object, after the entries before its position. An entry may also belong to no operation
of the history, if it does nothing.

The order is that of the positions (`Positioned.toLinearizable`). It respects real time if the
position of an operation is not before the end of the log when it was called, and before the end of
the log when it returned.
-/

namespace DistSys

variable {α σ : Type*} {step : σ → α → Option σ} {τ : Type*} [LinearOrder τ]

/-- An element that a list has once has one position. -/
theorem position_unique {l : List α} {P : α → Bool} (hone : (l.filter P).length ≤ 1) {i j : ℕ}
    {a b : α} (hi : l[i]? = some a) (hj : l[j]? = some b) (ha : P a) (hb : P b) : i = j := by
  wlog hlt : i < j generalizing i j a b
  · rcases Nat.lt_or_ge j i with h | h
    · exact (this hj hi hb ha h).symm
    · omega
  exfalso
  have hin : a ∈ (l.take j).filter P := by
    refine List.mem_filter.2 ⟨?_, ha⟩
    exact List.mem_of_getElem? (i := i) (by rw [List.getElem?_take_of_lt hlt, hi])
  have hin' : b ∈ (l.drop j).filter P := by
    refine List.mem_filter.2 ⟨?_, hb⟩
    exact List.mem_of_getElem? (i := 0) (by rw [List.getElem?_drop, Nat.add_zero, hj])
  have hlen := List.length_pos_of_mem hin
  have hlen' := List.length_pos_of_mem hin'
  rw [← List.take_append_drop j l, List.filter_append, List.length_append] at hone
  omega

/-- The operations of `h` at positions of a log: those that are `logged` and those that only
look. -/
structure Positioned (step : σ → α → Option σ) (call ret : α → τ) (h : List α) (g : ℕ → σ) (n : ℕ)
    (pos : α → ℕ) (logged : α → Bool) : Prop where
  interval : ∀ a ∈ h, call a ≤ ret a
  effect : ∀ a ∈ h, logged a = true → pos a < n ∧ step (g (pos a)) a = some (g (pos a + 1))
  look : ∀ a ∈ h, logged a = false → pos a ≤ n ∧ step (g (pos a)) a = some (g (pos a))
  /-- A position is that of one operation. -/
  distinct : ((h.filter logged).map pos).Nodup
  idle : ∀ p < n, (∀ a ∈ h, logged a = true → pos a ≠ p) → g (p + 1) = g p
  order : ∀ a ∈ h, ∀ b ∈ h, ret b < call a → pos b ≤ pos a ∧ (logged b = true → pos b < pos a)

namespace Positioned

variable {call ret : α → τ} {h : List α} {g : ℕ → σ} {n : ℕ} {pos : α → ℕ} {logged : α → Bool}

/-- The operations that look at the object at a position, in the order in which they returned. -/
def looks (ret : α → τ) (h : List α) (pos : α → ℕ) (logged : α → Bool) (p : ℕ) : List α :=
  (h.filter fun a => pos a = p ∧ logged a = false).insertionSort fun a b => ret a ≤ ret b

/-- The operation that is logged at a position. -/
def effects (h : List α) (pos : α → ℕ) (logged : α → Bool) (p : ℕ) : List α :=
  h.filter fun a => pos a = p ∧ logged a = true

/-- The operations in the order of their positions. -/
def block (ret : α → τ) (h : List α) (pos : α → ℕ) (logged : α → Bool) (p : ℕ) : List α :=
  looks ret h pos logged p ++ effects h pos logged p

theorem mem_looks {p : ℕ} {a : α} :
    a ∈ looks ret h pos logged p ↔ a ∈ h ∧ pos a = p ∧ logged a = false := by
  simp [looks]

theorem mem_effects {p : ℕ} {a : α} :
    a ∈ effects h pos logged p ↔ a ∈ h ∧ pos a = p ∧ logged a = true := by
  simp [effects]

theorem block_perm (p : ℕ) : (block ret h pos logged p).Perm (onKey pos p h) := by
  have h₁ : (looks ret h pos logged p).Perm ((onKey pos p h).filter fun a => !logged a) := by
    refine (List.perm_insertionSort _ _).trans (.of_eq ?_)
    rw [onKey, List.filter_filter]
    congr 1
    funext a
    cases logged a <;> simp
  have h₂ : effects h pos logged p = (onKey pos p h).filter logged := by
    rw [effects, onKey, List.filter_filter]
    congr 1
    funext a
    cases logged a <;> simp
  rw [block, h₂]
  refine (h₁.append_right _).trans (List.perm_append_comm.trans ?_)
  exact List.filter_append_perm logged (onKey pos p h)

variable (hpos : Positioned step call ret h g n pos logged)
include hpos

theorem perm : ((List.range (n + 1)).flatMap (block ret h pos logged)).Perm h := by
  suffices hkeys : ∀ p, (onKey pos p ((List.range (n + 1)).flatMap (block ret h pos logged))).Perm
      (onKey pos p h) from perm_of_onKey hkeys
  intro p
  by_cases hp : p < n + 1
  · rw [onKey_flatMap _ List.nodup_range (List.mem_range.2 hp)]
    · exact block_perm p
    · exact fun q a ha => (mem_onKey.1 ((block_perm q).mem_iff.1 ha)).2
  · have h₁ : onKey pos p h = [] := by
      rw [onKey, List.filter_eq_nil_iff]
      intro a ha hap
      rw [decide_eq_true_iff] at hap
      cases hl : logged a with
      | true => exact hp (by have := (hpos.effect a ha hl).1; omega)
      | false => exact hp (by have := (hpos.look a ha hl).1; omega)
    have h₂ : onKey pos p ((List.range (n + 1)).flatMap (block ret h pos logged)) = [] := by
      rw [onKey, List.filter_eq_nil_iff]
      intro a ha hap
      rw [decide_eq_true_iff] at hap
      obtain ⟨q, hq, ha⟩ := List.mem_flatMap.1 ha
      rw [← hap, (mem_onKey.1 ((block_perm q).mem_iff.1 ha)).2] at hp
      exact hp (List.mem_range.1 hq)
    rw [h₁, h₂]

/-- Looking does not change the object. -/
theorem run_looks (p : ℕ) : run step (g p) (looks ret h pos logged p) = some (g p) := by
  have hlook : ∀ a ∈ looks ret h pos logged p, step (g p) a = some (g p) := by
    intro a ha
    obtain ⟨hmem, rfl, hl⟩ := mem_looks.1 ha
    exact (hpos.look a hmem hl).2
  generalize looks ret h pos logged p = l at hlook
  induction l with
  | nil => rfl
  | cons a l ih =>
    rw [List.forall_mem_cons] at hlook
    exact run_cons_eq_some.2 ⟨g p, hlook.1, ih hlook.2⟩

theorem run_effects {p : ℕ} (hp : p < n) :
    run step (g p) (effects h pos logged p) = some (g (p + 1)) := by
  -- at most one operation has the position
  have hle : (effects h pos logged p).length ≤ 1 := by
    have hnodup : ((effects h pos logged p).map pos).Nodup := by
      refine hpos.distinct.sublist (List.Sublist.map pos ?_)
      refine List.monotone_filter_right h fun a ha => ?_
      exact (of_decide_eq_true ha).2
    have hrep : (effects h pos logged p).map pos =
        List.replicate (effects h pos logged p).length p := by
      rw [List.eq_replicate_iff, List.length_map, List.forall_mem_map]
      exact ⟨rfl, fun a ha => (mem_effects.1 ha).2.1⟩
    rwa [hrep, List.nodup_replicate] at hnodup
  cases heff : effects h pos logged p with
  | nil =>
    rw [run_nil, hpos.idle p hp]
    intro a ha hl hap
    have := mem_effects.2 ⟨ha, hap, hl⟩
    rw [heff] at this
    cases this
  | cons a l =>
    rw [heff, List.length_cons] at hle
    obtain rfl := List.length_eq_zero_iff.1 (Nat.le_zero.1 (Nat.le_of_succ_le_succ hle))
    obtain ⟨ha, rfl, hl⟩ := mem_effects.1 (heff ▸ List.mem_cons_self : a ∈ effects h pos logged p)
    exact run_cons_eq_some.2 ⟨_, (hpos.effect a ha hl).2, rfl⟩

theorem run_blocks {m : ℕ} (hm : m ≤ n) :
    run step (g 0) ((List.range m).flatMap (block ret h pos logged)) = some (g m) := by
  induction m with
  | zero => rfl
  | succ m ih =>
    rw [List.range_succ, List.flatMap_append, List.flatMap_singleton]
    exact run_append_of (ih (by omega)) (run_append_of (hpos.run_looks m) (hpos.run_effects hm))

theorem legal : run step (g 0) ((List.range (n + 1)).flatMap (block ret h pos logged)) =
    some (g n) := by
  have hnil : effects h pos logged n = [] := by
    rw [List.eq_nil_iff_forall_not_mem]
    intro a ha
    obtain ⟨ha, hn, hl⟩ := mem_effects.1 ha
    exact absurd hn (hpos.effect a ha hl).1.ne
  rw [List.range_succ, List.flatMap_append, List.flatMap_singleton, block, hnil, List.append_nil]
  exact run_append_of (hpos.run_blocks le_rfl) (hpos.run_looks n)

theorem pairwise : ((List.range (n + 1)).flatMap (block ret h pos logged)).Pairwise
    fun a b => ¬ ret b < call a := by
  rw [List.pairwise_flatMap]
  refine ⟨fun p _ => ?_, List.pairwise_lt_range.imp fun hlt a ha b hb hprec => ?_⟩
  · rw [block, List.pairwise_append]
    refine ⟨?_, ?_, fun a ha b hb hprec => ?_⟩
    · have hsorted : (looks ret h pos logged p).Pairwise fun a b => ret a ≤ ret b :=
        have : Std.Total fun a b : α => ret a ≤ ret b := ⟨fun a b => le_total _ _⟩
        have : IsTrans α fun a b => ret a ≤ ret b := ⟨fun _ _ _ => le_trans⟩
        List.pairwise_insertionSort _ _
      refine hsorted.imp_of_mem fun ha _ hle hprec => ?_
      exact absurd (hprec.trans_le (hpos.interval _ (mem_looks.1 ha).1)) hle.not_gt
    · refine List.Pairwise.imp_of_mem (R := fun _ _ => True) (fun ha hb _ hprec => ?_)
        (List.pairwise_of_forall fun _ _ => trivial)
      obtain ⟨ha, hap, -⟩ := mem_effects.1 ha
      obtain ⟨hb, hbp, hl⟩ := mem_effects.1 hb
      have := (hpos.order _ ha _ hb hprec).2 hl
      omega
    · obtain ⟨ha, hap, -⟩ := mem_looks.1 ha
      obtain ⟨hb, hbp, hl⟩ := mem_effects.1 hb
      have := (hpos.order a ha b hb hprec).2 hl
      omega
  · obtain ⟨ha, hap⟩ := mem_onKey.1 ((block_perm _).mem_iff.1 ha)
    obtain ⟨hb, hbp⟩ := mem_onKey.1 ((block_perm _).mem_iff.1 hb)
    have := (hpos.order a ha b hb hprec).1
    omega

/-- **A log linearizes.** -/
theorem toLinearizable : Linearizable step (fun b a => ret b < call a) (g 0) h :=
  ⟨_, hpos.perm, ⟨_, hpos.legal⟩, hpos.pairwise⟩

end Positioned

end DistSys
