import DistSys.Lib.Pairs
import DistSys.MapReduce.Coordinator

/-!
# The steps of the coordinator

`Step` lists what an action can do, with the conditions under which it does it; `step_cases` shows
that the list is complete. The goroutine `catchTimeout` finds a task again by its id (`abs`).
-/

namespace DistSys.MapReduce

/-- The task that `catchTimeout` is sending. -/
def Catcher.hand : Catcher → List ℕ
  | .sending i _ => [i]
  | _ => []

/-- The workers that the range of `catchTimeout` has not met yet. -/
def Catcher.rest : Catcher → List ℕ
  | .sleeping => []
  | .ranging rest | .sending _ rest => rest

namespace Job

/-- The actions of the coordinator, one constructor for each outcome. -/
inductive Step (c : Job) : Action → Job → Prop
  | start (hstate : c.state = .wait) : Step c .start { c with state := .map }
  | tick (d : ℕ) : Step c (.tick d) { c with now := c.now + d }
  | send (hlt : c.nextTask < c.tasks.length) (hroom : c.tasksCh.length < c.tasksCap) :
      Step c .taskBegin
        { c with tasksCh := c.tasksCh ++ [c.nextTask], nextTask := c.nextTask + 1 }
  | sent (hge : ¬ c.nextTask < c.tasks.length) (hfirst : c.distributed = false)
      (hopen : c.sendClosed = false) :
      Step c .taskBegin { c with sendClosed := true, distributed := true }
  | noTask (hrun : c.Running) (hnone : ¬ (c.state = .map ∨ c.state = .reduce) ∨ c.tasksCh = []) :
      Step c .askTask c
  | assign {i w : ℕ} {tasksCh ws : List ℕ} {t : Task} (hrun : c.Running)
      (hphase : c.state = .map ∨ c.state = .reduce) (hch : c.tasksCh = i :: tasksCh)
      (hids : c.workerIdCh = w :: ws) (ht : c.tasks[i]? = some t) :
      Step c .askTask ((c.popTask i tasksCh).assign w ws i (c.startTask t))
  /-- There is no worker id for the task. -/
  | drop {i : ℕ} {tasksCh : List ℕ} (hrun : c.Running)
      (hphase : c.state = .map ∨ c.state = .reduce) (hch : c.tasksCh = i :: tasksCh)
      (hnone : c.workerIdCh = [] ∨ c.tasks[i]? = none) : Step c .askTask (c.popTask i tasksCh)
  /-- The call of `FinishTask` is not matched. -/
  | ignored {k : ℕ} {r : AskTaskReply} (hrun : c.Running) (hr : c.working[k]? = some r) :
      Step c (.finishTask k) { c with working := c.working.eraseIdx k }
  | completed {k i : ℕ} {r : AskTaskReply} {t : Task} (hrun : c.Running)
      (hr : c.working[k]? = some r) (hi : (r.workerId, i) ∈ c.workerIdTask)
      (ht : c.tasks[i]? = some t) (htime : r.taskBeginTime / second = t.startWorkTime / second)
      (hmore : ¬ (c.sendClosed = true ∧ c.tasksCh = [] ∧ c.unassign r.workerId = [])) :
      Step c (.finishTask k) ({ c with working := c.working.eraseIdx k }.complete r.workerId i)
  /-- The last task of the phase is completed. -/
  | finished {k i : ℕ} {r : AskTaskReply} {t : Task} {c₁ c' : Job} (hrun : c.Running)
      (hr : c.working[k]? = some r) (hi : (r.workerId, i) ∈ c.workerIdTask)
      (ht : c.tasks[i]? = some t) (htime : r.taskBeginTime / second = t.startWorkTime / second)
      (hc₁ : c₁ = { c with working := c.working.eraseIdx k }.complete r.workerId i)
      (hsent : c₁.sendClosed = true) (hch : c₁.tasksCh = []) (hids : c₁.workerIdTask = [])
      (hnext : c₁.nextPhase = some c') : Step c (.finishTask k) c'
  | crash (k : ℕ) : Step c (.crash k) { c with working := c.working.eraseIdx k }
  | map2Reduce (hrun : c.Running) (hstate : c.state = .shuffle) :
      Step c .map2Reduce c.map2Reduce
  | doEnd (hrun : c.Running) : Step c .doEnd { c with doneCh := false, ended := true }
  | rangeBegins {order : List ℕ} (hcatch : c.catcher = .sleeping) :
      Step c (.catchTimeout order) { c with catcher := .ranging order }
  /-- The next worker of the range keeps its task. -/
  | inTime {order rest : List ℕ} {w : ℕ} (hcatch : c.catcher = .ranging (w :: rest)) :
      Step c (.catchTimeout order) { c with catcher := .ranging rest }
  | rangeEnds {order : List ℕ} (hcatch : c.catcher = .ranging []) :
      Step c (.catchTimeout order) { c with catcher := .sleeping }
  | expire {order rest : List ℕ} {w i : ℕ} {t t' : Task} (hcatch : c.catcher = .ranging (w :: rest))
      (hi : c.assigned w = some i) (ht : c.tasks[i]? = some t) (hstatus : t.status = .inprogress)
      (ht' : c.tasks[abs t.taskId]? = some t') (htime : 10 * second < c.now - t'.startWorkTime) :
      Step c (.catchTimeout order) { c with
        workerIdCh := c.workerIdCh ++ [w]
        workerIdTask := c.unassign w
        catcher := .sending (abs t.taskId) rest }
  | resend {order rest : List ℕ} {i : ℕ} (hcatch : c.catcher = .sending i rest)
      (hroom : c.tasksCh.length < c.tasksCap) :
      Step c (.catchTimeout order) { c with tasksCh := c.tasksCh ++ [i], catcher := .ranging rest }

variable {c c' : Job}

theorem taskBegin_cases (hs : c.taskBegin = some c') : c.Step .taskBegin c' := by
  unfold taskBegin at hs
  split at hs
  · rename_i hlt
    split at hs
    · rename_i hroom
      cases hs
      exact .send hlt hroom
    · cases hs
  · rename_i hge
    split at hs
    · rename_i hfirst
      cases hs
      exact .sent hge hfirst.1 hfirst.2
    · cases hs

theorem doAskTask_cases (hrun : c.Running) : c.Step .askTask c.doAskTask := by
  unfold doAskTask
  split
  · rename_i hphase
    split
    · rename_i hch
      exact .noTask hrun (.inr hch)
    · rename_i i tasksCh hch
      have hget : (c.popTask i tasksCh).tasks[i]? = c.tasks[i]?.map c.startTask :=
        List.getElem?_modify_eq ..
      cases hids : c.workerIdCh with
      | nil =>
        have hids' : (c.popTask i tasksCh).workerIdCh = [] := hids
        simp only [hids']
        exact .drop hrun hphase hch (.inl hids)
      | cons w ws =>
        have hids' : (c.popTask i tasksCh).workerIdCh = w :: ws := hids
        simp only [hids', hget]
        cases ht : c.tasks[i]? with
        | none => exact .drop hrun hphase hch (.inr ht)
        | some t => exact .assign hrun hphase hch hids ht
  · rename_i hphase
    exact .noTask hrun (.inl hphase)

theorem doFinishTask_cases {k : ℕ} {r : AskTaskReply} (hrun : c.Running)
    (hr : c.working[k]? = some r)
    (hs : { c with working := c.working.eraseIdx k }.doFinishTask r = some c') :
    c.Step (.finishTask k) c' := by
  unfold doFinishTask at hs
  split at hs
  · cases hs
    exact .ignored hrun hr
  · rename_i i hi
    split at hs
    · cases hs
      exact .ignored hrun hr
    · rename_i t ht
      split at hs
      · cases hs
        exact .ignored hrun hr
      · split at hs
        · cases hs
          exact .ignored hrun hr
        · rename_i htime
          have hmem := mem_of_lookup_eq_some hi
          simp only at hs
          split at hs
          · rename_i hlast
            exact .finished hrun hr hmem ht (not_not.1 htime) rfl hlast.1 hlast.2.1 hlast.2.2 hs
          · rename_i hmore
            cases hs
            exact .completed hrun hr hmem ht (not_not.1 htime) hmore

theorem catchTimeout_cases {order : List ℕ} (hs : c.catchTimeout order = some c') :
    c.Step (.catchTimeout order) c' := by
  unfold catchTimeout at hs
  split at hs
  · rename_i hcatch
    split at hs
    · cases hs
      exact .rangeBegins hcatch
    · cases hs
  · rename_i hcatch
    cases hs
    exact .rangeEnds hcatch
  · rename_i w rest hcatch
    unfold catchNext at hs
    split at hs
    · cases hs
    · rename_i t ht
      obtain ⟨i, hi, ht⟩ := Option.bind_eq_some_iff.1 ht
      split at hs
      · cases hs
        exact .inTime hcatch
      · rename_i hstatus
        split at hs
        · cases hs
        · rename_i t' ht'
          split at hs
          · rename_i htime
            cases hs
            exact .expire hcatch hi ht (not_not.1 hstatus) ht' htime
          · cases hs
            exact .inTime hcatch
  · rename_i i rest hcatch
    split at hs
    · rename_i hroom
      cases hs
      exact .resend hcatch hroom
    · cases hs

theorem step_cases {a : Action} (hs : c.step a = some c') : c.Step a c' := by
  cases a with
  | start =>
    simp only [step] at hs
    split at hs
    · rename_i hstate
      cases hs
      exact .start hstate
    · cases hs
  | tick d =>
    cases hs
    exact .tick d
  | taskBegin => exact taskBegin_cases hs
  | askTask =>
    simp only [step] at hs
    split at hs
    · rename_i hrun
      cases hs
      exact doAskTask_cases hrun
    · cases hs
  | finishTask k =>
    simp only [step] at hs
    split at hs
    · rename_i hrun
      split at hs
      · rename_i r hr
        exact doFinishTask_cases hrun hr hs
      · cases hs
    · cases hs
  | crash k =>
    cases hs
    exact .crash k
  | map2Reduce =>
    simp only [step] at hs
    split at hs
    · rename_i h
      cases hs
      exact .map2Reduce h.1 h.2.2
    · cases hs
  | doEnd =>
    simp only [step] at hs
    split at hs
    · rename_i h
      cases hs
      exact .doEnd h.1
    · cases hs
  | catchTimeout order => exact catchTimeout_cases hs

end Job

end DistSys.MapReduce
