import DistSys.Porcupine.Parallel
import Mathlib

/-!
# Histories of a key/value store

`checkOperations`, and the model of a key/value store in `models/kv.go` with which the tests check
the servers. The model is that of a single key: a history is divided into those of its keys, which
are checked in parallel.

That this is right is the locality of linearizability. `Ok` is returned only if the operations on
all keys together are linearizable for one map, and `Illegal` only if they are not
(`checkOperations_kvModel`). A history without operations has no partitions: without a timeout the
check of it does not return (`checkOperations_returns_iff`).
-/

namespace DistSys.Porcupine

/-! ## Operations -/

section Operations

variable {ι ο σ : Type} [DecidableEq σ]

/-- `checkOperations` up to its call of `checkParallel`, and that at its start. -/
def checkOperations (byTime : ByTime ι ο) (model : Model ι ο σ) (history : List (Operation ι ο)) :
    Parallel ι ο σ :=
  .start (((fillDefault model).partition history).map (makeEntries byTime))

end Operations

/-! ## The model of a key/value store -/

/-- `op` is 0 for get, 1 for put, 2 for append, and another number for append with a result. -/
structure KvInput where
  op : UInt8
  key : List UInt8
  value : List UInt8
  deriving DecidableEq

structure KvOutput where
  value : List UInt8
  deriving DecidableEq

def keyOf (v : Operation KvInput KvOutput) : List UInt8 := v.input.key

/-- The operations of each key, in their order. -/
def byKey (history : List (Operation KvInput KvOutput)) :
    List UInt8 → List (Operation KvInput KvOutput) :=
  history.foldl (fun m v => Function.update m (keyOf v) (m (keyOf v) ++ [v])) fun _ => []

/-- The keys are sorted, as strings of bytes. -/
def kvPartition (history : List (Operation KvInput KvOutput)) :
    List (List (Operation KvInput KvOutput)) :=
  let keys := (history.map keyOf).dedup.insertionSort fun a b => a.map UInt8.toNat ≤ b.map UInt8.toNat
  keys.map (byKey history)

def kvStep (st : List UInt8) (inp : KvInput) (out : KvOutput) : Bool × List UInt8 :=
  if inp.op = 0 then (out.value = st, st)
  else if inp.op = 1 then (true, inp.value)
  else if inp.op = 2 then (true, st ++ inp.value)
  else (out.value = st, st ++ inp.value)

def kvModel : Model KvInput KvOutput (List UInt8) where
  partition := some kvPartition
  init := []
  step := kvStep

/-- The history is linearizable for a map, which is empty at first. -/
def LinearizableMap (history : List (Operation KvInput KvOutput)) : Prop :=
  Linearizable (stepAt keyOf (fillDefault kvModel).stepOf)
    (fun b a => b.ret < a.call) (fun _ => []) history

theorem byKey_eq (history : List (Operation KvInput KvOutput)) (k : List UInt8) :
    byKey history k = onKey keyOf k history := by
  suffices h : ∀ m : List UInt8 → List (Operation KvInput KvOutput),
      history.foldl (fun m v => Function.update m (keyOf v) (m (keyOf v) ++ [v])) m k =
        m k ++ onKey keyOf k history from h _
  induction history with
  | nil => simp [onKey]
  | cons v history ih =>
    intro m
    rw [List.foldl_cons, ih]
    by_cases hk : keyOf v = k
    · subst hk
      rw [Function.update_self, onKey_cons_self, List.append_assoc, List.singleton_append]
    · rw [Function.update_of_ne (Ne.symm hk), onKey_cons_ne hk]

theorem mem_kvPartition {history sub : List (Operation KvInput KvOutput)} :
    sub ∈ kvPartition history ↔
      ∃ v ∈ history, sub = onKey keyOf (keyOf v) history := by
  simp only [kvPartition, List.mem_map, List.mem_insertionSort, List.mem_dedup, byKey_eq]
  constructor
  · rintro ⟨_, ⟨v, hv, rfl⟩, rfl⟩
    exact ⟨v, hv, rfl⟩
  · rintro ⟨v, hv, rfl⟩
    exact ⟨_, ⟨v, hv, rfl⟩, rfl⟩

theorem Timed.kvPartition {history sub : List (Operation KvInput KvOutput)} (h : Timed history)
    (hsub : sub ∈ kvPartition history) : Timed sub := by
  obtain ⟨v, -, rfl⟩ := mem_kvPartition.1 hsub
  exact fun op hop => h op (mem_onKey.1 hop).1

/-- **The keys can be checked one by one.** -/
theorem forall_kvPartition_iff {history : List (Operation KvInput KvOutput)}
    (htimed : Timed history) :
    (∀ sub ∈ kvPartition history, LinearizableHistory (fillDefault kvModel) sub) ↔
      LinearizableMap history := by
  rw [LinearizableMap, linearizable_stepAt htimed]
  constructor
  · intro h k
    by_cases hk : onKey keyOf k history = []
    · rw [hk]
      exact ⟨[], .nil, ⟨_, rfl⟩, .nil⟩
    · obtain ⟨v, hv⟩ := List.exists_mem_of_ne_nil _ hk
      obtain ⟨hmem, rfl⟩ := mem_onKey.1 hv
      exact h _ (mem_kvPartition.2 ⟨v, hmem, rfl⟩)
  · intro h sub hsub
    obtain ⟨v, -, rfl⟩ := mem_kvPartition.1 hsub
    exact h (keyOf v)

section Check

variable (byTime : ByTime KvInput KvOutput) {history : List (Operation KvInput KvOutput)}

theorem wellFormed_partitions (htimed : Timed history) :
    ∀ entries ∈ (kvPartition history).map (makeEntries byTime), WellFormed entries := by
  intro entries hentries
  obtain ⟨sub, hsub, rfl⟩ := List.mem_map.1 hentries
  exact wellFormed_makeEntries byTime (htimed.kvPartition hsub)

theorem forall_entries_iff (htimed : Timed history) :
    (∀ entries ∈ (kvPartition history).map (makeEntries byTime),
      LinearizableEntries (fillDefault kvModel) entries) ↔ LinearizableMap history := by
  rw [← forall_kvPartition_iff htimed, List.forall_mem_map]
  exact forall₂_congr fun sub hsub => linearizable_makeEntries byTime (htimed.kvPartition hsub)

/-- What a result says of the history. -/
theorem kvModel_sound {byTime : ByTime KvInput KvOutput} (htimed : Timed history)
    {computeInfo : Bool} {timeout : ℤ} {as : List ParallelAction}
    {s : Parallel KvInput KvOutput (List UInt8)}
    (hrun : run (Parallel.step (fillDefault kvModel) computeInfo timeout)
      (checkOperations byTime kvModel history) as = some s)
    {result : CheckResult} {info : Option (List (List (List ℤ)))}
    (hmain : s.main = .done result info) :
    (result = .ok → LinearizableMap history) ∧ (result = .illegal → ¬ LinearizableMap history) ∧
      (result = .unknown → 0 < timeout) := by
  obtain ⟨hok, hillegal, hunknown⟩ := (checkParallel_sound (wellFormed_partitions byTime htimed)
    (fillDefault_congruent rfl) hrun).2.1 result info hmain
  refine ⟨fun hr => (forall_entries_iff byTime htimed).1 (hok hr).2, fun hr hlin => ?_, hunknown⟩
  obtain ⟨entries, hmem, hnot⟩ := hillegal hr
  exact hnot ((forall_entries_iff byTime htimed).2 hlin entries hmem)

end Check

/-- **The result for a history of a key/value store**, in any order in which the goroutines run. The
check comes to an end. `Ok` is returned only if the operations on all keys are linearizable for one
map, `Illegal` only if they are not, and `Unknown` only if there is a timeout. -/
theorem checkOperations_kvModel {byTime : ByTime KvInput KvOutput}
    {history : List (Operation KvInput KvOutput)} (htimed : Timed history) {computeInfo : Bool}
    {timeout : ℤ} {as : List ParallelAction} {s : Parallel KvInput KvOutput (List UInt8)}
    (hrun : run (Parallel.step (fillDefault kvModel) computeInfo timeout)
      (checkOperations byTime kvModel history) as = some s) :
    as.length ≤ Parallel.bound ((kvPartition history).map (makeEntries byTime)) ∧
    ∀ result info, s.main = .done result info →
      (result = .ok → LinearizableMap history) ∧ (result = .illegal → ¬ LinearizableMap history) ∧
        (result = .unknown → 0 < timeout) := by
  have hbound := (checkParallel_sound (wellFormed_partitions byTime htimed)
    (fillDefault_congruent rfl) hrun).1
  exact ⟨hbound, fun result info hmain => kvModel_sound htimed hrun hmain⟩

/-- A `Put` and a `Get` of one key that overlap, and an `Append` and a `Get` of another, where the
`Get` takes effect first. -/
theorem checkOperations_kvModel_twoKeys :
    let history : List (Operation KvInput KvOutput) :=
      [⟨0, ⟨1, [120], [49]⟩, 0, ⟨[]⟩, 10⟩, ⟨1, ⟨0, [120], []⟩, 5, ⟨[49]⟩, 15⟩,
        ⟨2, ⟨2, [121], [50]⟩, 1, ⟨[]⟩, 12⟩, ⟨3, ⟨0, [121], []⟩, 3, ⟨[]⟩, 8⟩]
    Timed history ∧ (kvPartition history).length = 2 ∧ LinearizableMap history := by
  intro history
  refine ⟨by decide, by decide +kernel, ?_⟩
  obtain ⟨s, hrun, hmain⟩ : ∃ s, run (Parallel.step (fillDefault kvModel) false 0)
      (checkOperations (insertionByTime _ _) kvModel history)
      ([.routine 0, .routine 1, .routine 0] ++ List.replicate 7 (.routine 1) ++
        List.replicate 3 (.routine 0) ++ [.receive, .receive]) = some s ∧
        s.main = .done .ok none := by decide +kernel
  exact ((checkOperations_kvModel (by decide) hrun).2 _ _ hmain).1 rfl

theorem kvPartition_eq_nil {history : List (Operation KvInput KvOutput)} :
    kvPartition history = [] ↔ history = [] := by
  simp only [List.eq_nil_iff_forall_not_mem, mem_kvPartition]
  exact ⟨fun h v hv => h _ ⟨v, hv, rfl⟩, fun h sub ⟨v, hv, _⟩ => h v hv⟩

/-- **The check can return** if and only if there is an operation or a timeout. -/
theorem checkOperations_returns_iff {byTime : ByTime KvInput KvOutput}
    {history : List (Operation KvInput KvOutput)} (htimed : Timed history) {computeInfo : Bool}
    {timeout : ℤ} :
    (∃ as s result info, run (Parallel.step (fillDefault kvModel) computeInfo timeout)
        (checkOperations byTime kvModel history) as = some s ∧ s.main = .done result info) ↔
      history ≠ [] ∨ 0 < timeout := by
  constructor
  · rintro ⟨as, s, result, info, hrun, hmain⟩
    by_contra hnot
    push Not at hnot
    obtain ⟨rfl, htimeout⟩ := hnot
    cases as with
    | nil =>
      rw [run_nil, Option.some.injEq] at hrun
      subst hrun
      cases hmain
    | cons a as =>
      obtain ⟨s₁, hstep, -⟩ := run_cons_eq_some.1 hrun
      cases a with
      | routine i => cases hstep
      | receive => cases hstep
      | timeout =>
        change (if 0 < timeout then _ else none) = some s₁ at hstep
        rw [if_neg (not_lt.2 htimeout)] at hstep
        cases hstep
  · intro h
    have wf := wellFormed_partitions byTime htimed
    obtain ⟨w, inv, -⟩ := Parallel.start_inv (fillDefault kvModel) computeInfo timeout
      ((kvPartition history).map (makeEntries byTime))
    refine inv.exists_done wf (fillDefault_congruent rfl) (h.imp_left fun hne => ?_)
    rwa [Ne, List.map_eq_nil_iff, kvPartition_eq_nil]

theorem checkOperations_returns_nonempty :
    (∃ as s result info, run (Parallel.step (fillDefault kvModel) true 0)
      (checkOperations (insertionByTime _ _) kvModel [⟨0, ⟨0, [120], []⟩, 1, ⟨[]⟩, 2⟩]) as = some s ∧
        s.main = .done result info) ∧
    ¬ ∃ as s result info, run (Parallel.step (fillDefault kvModel) true 0)
      (checkOperations (insertionByTime _ _) kvModel []) as = some s ∧ s.main = .done result info :=
  ⟨(checkOperations_returns_iff (by decide)).2 (.inl (by simp)),
    fun h => by simpa using (checkOperations_returns_iff (by decide)).1 h⟩

end DistSys.Porcupine
