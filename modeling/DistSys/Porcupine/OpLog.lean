import DistSys.Porcupine.KvModel

/-!
# What the tests log

The functions `Get`, `Put` and `Append` of `test_test.go` read the clock before and after a call of
the clerk, and log the operation with these times (`OpLog`).

The calls of a run of a service are given by operations whose times are the numbers of the steps at
which they began and returned. The clock does not go back, so the times in the log are not within
those of the call (`Records`); an operation that comes before another in the log does so in the run.
If the calls are linearizable, the log is (`Logged.linearizableMap`), and the check of it does not
return `Illegal` (`Logged.not_illegal`).
-/

namespace DistSys.Porcupine

variable {clock : ℤ → ℤ}

/-- What the model of the check sees of a map. -/
def contents (m : List UInt8 → Option (List UInt8)) (key : List UInt8) : List UInt8 := (m key).getD []

theorem contents_update (m : List UInt8 → Option (List UInt8)) (key value : List UInt8) :
    contents (Function.update m key (some value)) = Function.update (contents m) key value := by
  funext k
  by_cases hk : k = key
  · subst hk
    simp [contents]
  · simp [contents, hk]

/-- A step of the model of the check. -/
theorem stepAt_kvModel (f : List UInt8 → List UInt8) (op : Operation KvInput KvOutput) :
    stepAt keyOf (fillDefault kvModel).stepOf f op =
      let r := kvStep (f op.input.key) op.input op.output
      if r.1 then some (Function.update f op.input.key r.2) else none := by
  change (if (kvStep (f op.input.key) op.input op.output).1 then
    some (kvStep (f op.input.key) op.input op.output).2 else none).map _ = _
  split
  · rename_i h
    simp only [h, if_true]
    rfl
  · rename_i h
    simp only [h]
    rfl

/-- An operation of the log and the call that it is about. -/
structure Records (clock : ℤ → ℤ) (op call : Operation KvInput KvOutput) : Prop where
  input : op.input = call.input
  output : op.output = call.output
  start : op.call ≤ clock call.call
  stop : clock call.ret ≤ op.ret

/-- The log has one operation for each call. -/
def Logged (clock : ℤ → ℤ) (operations calls : List (Operation KvInput KvOutput)) : Prop :=
  ∃ l, List.Forall₂ (Records clock) operations l ∧ l.Perm calls

theorem Records.stepAt_eq {op call : Operation KvInput KvOutput} (h : Records clock op call)
    (f : List UInt8 → List UInt8) :
    stepAt keyOf (fillDefault kvModel).stepOf f op =
      stepAt keyOf (fillDefault kvModel).stepOf f call := by
  rw [stepAt_kvModel, stepAt_kvModel, h.input, h.output]

section Logged

variable {operations calls : List (Operation KvInput KvOutput)}

theorem Logged.linearizableMap (hlog : Logged clock operations calls) (hclock : Monotone clock)
    (hlin : LinearizableMap calls) : LinearizableMap operations := by
  obtain ⟨l, hrec, hperm⟩ := hlog
  refine Linearizable.of_forall₂ hrec (fun op call h f => h.stepAt_eq f) ?_
    ((linearizable_perm hperm).2 hlin)
  -- the clock does not go back
  intro b b' a a' hb ha hlt
  by_contra hnot
  have hle : clock a'.call ≤ clock b'.ret := hclock (not_lt.1 hnot)
  have hb := hb.stop
  have ha := ha.start
  omega

theorem Logged.timed (hlog : Logged clock operations calls) (hclock : Monotone clock)
    (hcalls : Timed calls) : Timed operations := by
  obtain ⟨l, hrec, hperm⟩ := hlog
  intro op hop
  obtain ⟨call, hcall, h⟩ := exists_of_forall₂ hrec hop
  exact h.start.trans ((hclock (hcalls call (hperm.mem_iff.1 hcall))).trans h.stop)

/-- **The check of the log** does not return `Illegal`. -/
theorem Logged.not_illegal (hlog : Logged clock operations calls) (hclock : Monotone clock)
    (hcalls : Timed calls) (hlin : LinearizableMap calls) {byTime : ByTime KvInput KvOutput}
    {computeInfo : Bool} {timeout : ℤ} {as : List ParallelAction}
    {s : Parallel KvInput KvOutput (List UInt8)}
    (hrun : run (Parallel.step (fillDefault kvModel) computeInfo timeout)
      (checkOperations byTime kvModel operations) as = some s)
    {result : CheckResult} {info : Option (List (List (List ℤ)))}
    (hmain : s.main = .done result info) : result ≠ .illegal := by
  have htimed := hlog.timed hclock hcalls
  obtain ⟨-, hillegal, -⟩ := kvModel_sound htimed hrun hmain
  exact fun h => hillegal h (hlog.linearizableMap hclock hlin)

end Logged

end DistSys.Porcupine
