import DistSys.MapReduce.Phases

/-!
# Progress of a MapReduce job

Two ways in which the coordinator can stop for good, and when it does not.

The bounded channel: `catchTimeout` holds the lock while it sends, and only `run`, which needs the
lock, receives. During a pass a task goes to the channel from the distributing goroutine or from a
worker that has run out of time, and none leaves it, so these tasks have to fit in it (`Room`).

The end of a phase: `doFinishTask` tests for it only when a task is completed, so the token of the
distributing goroutine has to be there by then.

Main results: `catchTimeout_sends`, `phase_change_signalled`.
-/

namespace DistSys.MapReduce

namespace Job

variable {c c' : Job} {files : List String} {nReduce i : ℕ}

/-- The tasks that are not completed. -/
def unfinished (c : Job) : List ℕ :=
  (List.range c.tasks.length).filter fun i => completed c.tasks i = 0

theorem mem_unfinished : i ∈ c.unfinished ↔ i < c.tasks.length ∧ ¬ c.Completed i := by
  rw [unfinished, List.mem_filter, List.mem_range, decide_eq_true_eq, completed_eq_zero]

/-- The tasks that are not yet sent, in the hand of `catchTimeout`, in the channel or assigned. -/
def waitingTasks (c : Job) : List ℕ :=
  List.range' c.nextTask (c.tasks.length - c.nextTask) ++ c.catcher.hand ++ c.tasksCh ++
    c.workerIdTask.map Prod.snd

theorem count_range' (nextTask length : ℕ) (h : nextTask ≤ length) :
    (List.range' nextTask (length - nextTask)).count i = unsent nextTask length i := by
  have hnodup : (List.range' nextTask (length - nextTask)).Nodup := List.nodup_range'
  have hmem : i ∈ List.range' nextTask (length - nextTask) ↔ nextTask ≤ i ∧ i < length := by
    rw [List.mem_range'_1]
    omega
  rw [hnodup.count, unsent]
  simp only [hmem]

theorem Inv.count_waitingTasks (inv : Inv files nReduce c) (i : ℕ) :
    c.waitingTasks.count i + completed c.tasks i = c.places i := by
  simp only [waitingTasks, List.count_append, count_range' _ _ inv.next_le, Job.places]

theorem Inv.unfinished_of_waiting (inv : Inv files nReduce c) (h : i ∈ c.waitingTasks) :
    i ∈ c.unfinished := by
  have hcount := inv.count_waitingTasks i
  have hpos := List.count_pos_iff.2 h
  have hplaces := inv.places i
  rw [mem_unfinished, ← completed_eq_zero]
  split at hplaces
  · exact ⟨‹_›, by omega⟩
  · omega

/-! ## The send of `catchTimeout` -/

/-- At the time `now` the task of the worker is one that `catchTimeout` sends again. -/
def OutOfTime (c : Job) (now workerId : ℕ) : Prop :=
  ∃ i ∈ c.assigned workerId, ∃ task ∈ c.tasks[i]?, task.status = .inprogress ∧
    ∃ task' ∈ c.tasks[abs task.taskId]?, 10 * second < now - task'.startWorkTime

instance (now : ℕ) : DecidablePred (c.OutOfTime now) := fun _ =>
  inferInstanceAs (Decidable (∃ _ ∈ _, _))

/-- How many of the workers have run out of time. -/
def due (c : Job) (now : ℕ) (workers : List ℕ) : ℕ := workers.countP fun w => c.OutOfTime now w

/-- If `catchTimeout` has a task to send again, then its tasks, those in the channel and those not
yet sent fit in the channel. -/
def Room (c : Job) (now : ℕ) (workers : List ℕ) : Prop :=
  0 < c.catcher.hand.length + c.due now workers →
    (c.tasks.length - c.nextTask) + c.tasksCh.length + c.catcher.hand.length + c.due now workers ≤
      c.tasksCap

instance (now : ℕ) (workers : List ℕ) : Decidable (c.Room now workers) :=
  inferInstanceAs (Decidable (_ → _))

/-- There is room when a pass of `catchTimeout` begins, and when the clock goes on during a pass. -/
def RoomForDue (c : Job) : Action → Prop
  | .catchTimeout order => c.catcher = .sleeping → c.Room c.now order
  | .tick d => c.Room (c.now + d) c.catcher.rest
  | _ => True

instance : ∀ a, Decidable (c.RoomForDue a)
  | .catchTimeout order => inferInstanceAs (Decidable (c.catcher = .sleeping → c.Room c.now order))
  | .tick d => inferInstanceAs (Decidable (c.Room (c.now + d) c.catcher.rest))
  | .start | .taskBegin | .askTask | .finishTask _ | .crash _ | .map2Reduce | .doEnd =>
    isTrue trivial

/-- The channel is within its capacity, and has room for what is left of the pass. -/
structure Fits (c : Job) : Prop where
  length_le : c.tasksCh.length ≤ c.tasksCap
  room : c.Room c.now c.catcher.rest

/-- When `run` handles a message there is no pass. -/
theorem fits_of_running (hrun : c.Running) (h : c'.catcher = c.catcher)
    (hle : c'.tasksCh.length ≤ c'.tasksCap) : c'.Fits := by
  refine ⟨hle, fun hdue => absurd hdue ?_⟩
  rw [h, hrun.2.2]
  exact Nat.lt_irrefl 0

theorem due_cons (now w : ℕ) (rest : List ℕ) :
    c.due now (w :: rest) = c.due now rest + if c.OutOfTime now w then 1 else 0 := by
  simp only [due, List.countP_cons, decide_eq_true_eq]

/-- A task that is taken from its worker makes no other worker run out of time. -/
theorem Inv.due_unassign_le (inv : Inv files nReduce c) (now w : ℕ) (rest ws : List ℕ)
    (catcher : Catcher) :
    ({ c with workerIdCh := ws, workerIdTask := c.unassign w, catcher := catcher } : Job).due now
      rest ≤ c.due now rest := by
  refine List.countP_mono_left fun w' _ hw' => ?_
  obtain ⟨i, hi, htask⟩ := of_decide_eq_true hw'
  have hmem := (mem_filter_ne.1 (mem_of_lookup_eq_some hi)).1
  exact decide_eq_true ⟨i, lookup_eq_some_of_mem inv.keys_nodup hmem, htask⟩

theorem step_fits {a : Action} (inv : Inv files nReduce c) (hfits : c.Fits)
    (hroom : c.RoomForDue a) (hs : c.step a = some c') : c'.Fits := by
  have hlength := hfits.length_le
  cases step_cases hs with
  | tick d => exact ⟨hlength, hroom⟩
  | send hlt hfree =>
    refine ⟨?_, fun hdue => ?_⟩
    · rw [List.length_append, List.length_singleton]
      exact hfree
    · have hle := hfits.room hdue
      have hsame : ({ c with tasksCh := c.tasksCh ++ [c.nextTask], nextTask := c.nextTask + 1 } :
          Job).due c.now c.catcher.rest = c.due c.now c.catcher.rest := rfl
      simp only [List.length_append, List.length_singleton, hsame]
      omega
  | noTask hrun _ => exact fits_of_running hrun rfl hlength
  | assign hrun _ hch _ _ =>
    refine fits_of_running hrun rfl (Nat.le_trans ?_ hlength)
    rw [hch]
    exact Nat.le_succ _
  | drop hrun _ hch _ =>
    refine fits_of_running hrun rfl (Nat.le_trans ?_ hlength)
    rw [hch]
    exact Nat.le_succ _
  | ignored hrun _ => exact fits_of_running hrun rfl hlength
  | completed hrun _ _ _ _ _ => exact fits_of_running hrun rfl hlength
  | finished hrun _ _ _ _ hc₁ _ _ _ hnext =>
    subst hc₁
    unfold Job.nextPhase at hnext
    split at hnext <;> cases hnext <;> exact fits_of_running hrun rfl hlength
  | map2Reduce hrun _ => exact fits_of_running hrun rfl (Nat.zero_le _)
  | doEnd hrun => exact fits_of_running hrun rfl hlength
  | rangeBegins hcatch =>
    refine ⟨hlength, fun hdue => ?_⟩
    have hle := hroom hcatch
    rw [Room, hcatch] at hle
    exact hle hdue
  | @inTime _ rest w hcatch =>
    have hroom := hfits.room
    simp only [Room, hcatch, Catcher.rest, Catcher.hand, List.length_nil, due_cons] at hroom
    refine ⟨hlength, fun hdue => ?_⟩
    change 0 < 0 + c.due c.now rest at hdue
    change c.tasks.length - c.nextTask + c.tasksCh.length + 0 + c.due c.now rest ≤ c.tasksCap
    omega
  | rangeEnds hcatch => exact ⟨hlength, fun hdue => absurd hdue (Nat.lt_irrefl 0)⟩
  | @expire _ rest w i t t' hcatch hi ht hstatus ht' htime =>
    have hout : c.OutOfTime c.now w := ⟨i, hi, t, ht, hstatus, t', ht', htime⟩
    have hroom := hfits.room
    have hdue := inv.due_unassign_le c.now w rest (c.workerIdCh ++ [w])
      (.sending (abs t.taskId) rest)
    simp only [Room, hcatch, Catcher.rest, Catcher.hand, List.length_nil, due_cons,
      if_pos hout] at hroom
    refine ⟨hlength, fun _ => ?_⟩
    simp only [Catcher.hand, Catcher.rest, List.length_singleton]
    omega
  | @resend _ rest i hcatch hfree =>
    have hroom := hfits.room
    simp only [Room, hcatch, Catcher.rest, Catcher.hand, List.length_singleton] at hroom
    refine ⟨?_, fun _ => ?_⟩
    · rw [List.length_append, List.length_singleton]
      exact hfree
    · change c.tasks.length - c.nextTask + (c.tasksCh ++ [i]).length + 0 + c.due c.now rest ≤
        c.tasksCap
      rw [List.length_append, List.length_singleton]
      omega
  | _ => exact ⟨hlength, hfits.room⟩

/-- A send on a full channel is never done: `run` cannot take the lock. -/
theorem step_blocked {a : Action} {rest : List ℕ} (hsend : c.catcher = .sending i rest)
    (hfull : c.tasksCh.length = c.tasksCap) (hs : c.step a = some c') :
    c'.catcher = .sending i rest ∧ c'.tasksCh.length = c'.tasksCap := by
  have hlocked : ¬ c.Running := by
    rintro ⟨-, -, hsleep⟩
    cases hsend.symm.trans hsleep
  cases step_cases hs with
  | send _ hroom => exact absurd hfull (Nat.ne_of_lt hroom)
  | noTask hrun _ => exact absurd hrun hlocked
  | assign hrun _ _ _ _ => exact absurd hrun hlocked
  | drop hrun _ _ _ => exact absurd hrun hlocked
  | ignored hrun _ => exact absurd hrun hlocked
  | completed hrun _ _ _ _ _ => exact absurd hrun hlocked
  | finished hrun _ _ _ _ _ _ _ _ _ => exact absurd hrun hlocked
  | map2Reduce hrun _ => exact absurd hrun hlocked
  | doEnd hrun => exact absurd hrun hlocked
  | rangeBegins hcatch => cases hsend.symm.trans hcatch
  | inTime hcatch => cases hsend.symm.trans hcatch
  | rangeEnds hcatch => cases hsend.symm.trans hcatch
  | expire hcatch _ _ _ _ _ => cases hsend.symm.trans hcatch
  | resend _ hroom => exact absurd hfull (Nat.ne_of_lt hroom)
  | _ => exact ⟨hsend, hfull⟩

/-! ## The end of a phase -/

/-- The call of `FinishTask` is matched with a task, and all others are completed. -/
def CompletesLast (c : Job) (args : AskTaskReply) : Prop :=
  ∃ i ∈ c.assigned args.workerId, ∃ task ∈ c.tasks[i]?, task.status ≠ .completed ∧
    args.taskBeginTime / second = task.startWorkTime / second ∧ ∀ j ∈ c.unfinished, j = i

instance : DecidablePred c.CompletesLast := fun _ => inferInstanceAs (Decidable (∃ _ ∈ _, _))

/-- The call that completes the last task of a phase is handled after the token was sent. -/
def TokenFirst (c : Job) : Action → Prop
  | .finishTask k => (∃ args ∈ c.working[k]?, c.CompletesLast args) → c.sendClosed = true
  | _ => True

instance : ∀ a, Decidable (c.TokenFirst a)
  | .finishTask k =>
    inferInstanceAs (Decidable ((∃ args ∈ c.working[k]?, c.CompletesLast args) → _))
  | .start | .tick _ | .taskBegin | .askTask | .crash _ | .map2Reduce | .doEnd | .catchTimeout _ =>
    isTrue trivial

/-- Some task of the phase is not completed, or the phase is over and its end has been
signalled. -/
structure Signalled (c : Job) : Prop where
  open_phase : c.state = .wait ∨ c.state = .map ∨ c.state = .reduce → c.unfinished ≠ []
  shuffle : c.state = .shuffle → c.map2ReduceCh = true
  done : c.state = .done → c.doneCh = true ∨ c.ended = true

theorem Inv.unfinished_ne_nil (inv : Inv files nReduce c) (h : i ∈ c.waitingTasks) :
    c.unfinished ≠ [] :=
  List.ne_nil_of_mem (inv.unfinished_of_waiting h)

theorem mem_waitingTasks_of_unsent (h : c.nextTask ≤ i) (hi : i < c.tasks.length) :
    i ∈ c.waitingTasks := by
  refine List.mem_append_left _ (List.mem_append_left _ (List.mem_append_left _ ?_))
  rw [List.mem_range'_1]
  omega

theorem mem_waitingTasks_of_queued (h : i ∈ c.tasksCh) : i ∈ c.waitingTasks :=
  List.mem_append_left _ (List.mem_append_right _ h)

theorem mem_waitingTasks_of_assigned {w : ℕ} (h : (w, i) ∈ c.workerIdTask) : i ∈ c.waitingTasks :=
  List.mem_append_right _ (List.mem_map.2 ⟨_, h, rfl⟩)

/-- A call that leaves no task of the phase completes its last one. -/
theorem Inv.completesLast (inv : Inv files nReduce c) {k : ℕ} {r : AskTaskReply} {t : Task}
    (hi : (r.workerId, i) ∈ c.workerIdTask) (ht : c.tasks[i]? = some t)
    (htime : r.taskBeginTime / second = t.startWorkTime / second)
    (hnil : ({ c with working := c.working.eraseIdx k }.complete r.workerId i).unfinished = []) :
    c.CompletesLast r := by
  refine ⟨i, lookup_eq_some_of_mem inv.keys_nodup hi, t, ht,
    fun hdone => inv.not_completed hi ⟨t, ht, hdone⟩, htime, fun j hj => ?_⟩
  obtain ⟨hlt, hnot⟩ := mem_unfinished.1 hj
  by_contra hne
  refine List.ne_nil_of_mem (mem_unfinished.2 ⟨?_, fun hdone => hnot ?_⟩) hnil (a := j)
  · rw [Job.complete, List.length_modify]
    exact hlt
  · rw [← completed_eq_one] at hdone ⊢
    rwa [Job.complete, completed_modify_of_ne (Ne.symm hne)] at hdone

theorem signalled_makeCoordinator (hfiles : files ≠ []) :
    (makeCoordinator files nReduce).Signalled where
  open_phase _ := by
    have inv := Inv.inv_makeCoordinator files nReduce
    refine inv.unfinished_ne_nil (mem_waitingTasks_of_unsent (Nat.le_refl 0) ?_)
    rw [inv.tasks_length]
    exact List.length_pos_iff.2 hfiles
  shuffle := nofun
  done := nofun

theorem step_signalled {a : Action} (hreduce : 0 < nReduce) (inv : Inv files nReduce c)
    (hsig : c.Signalled) (htoken : c.TokenFirst a) (hs : c.step a = some c') : c'.Signalled := by
  have inv' := step_inv inv hs
  cases step_cases hs with
  | start hstate => exact ⟨fun _ => hsig.open_phase (.inl hstate), nofun, nofun⟩
  | assign _ _ _ _ _ =>
    exact ⟨fun _ => inv'.unfinished_ne_nil (mem_waitingTasks_of_assigned List.mem_cons_self),
      hsig.shuffle, hsig.done⟩
  | drop _ _ hch hnone => exact absurd hnone (inv.not_dropped hch)
  | completed _ hr hi ht htime hmore =>
    refine ⟨fun _ hnil => ?_, hsig.shuffle, hsig.done⟩
    -- Another task is in the channel or assigned, or the token is missing.
    refine hmore ⟨htoken ⟨_, hr, inv.completesLast hi ht htime hnil⟩, ?_, ?_⟩
    · refine List.eq_nil_iff_forall_not_mem.2 fun j hj => ?_
      exact inv'.unfinished_ne_nil (mem_waitingTasks_of_queued hj) hnil
    · refine List.eq_nil_iff_forall_not_mem.2 fun ⟨w, j⟩ hj => ?_
      exact inv'.unfinished_ne_nil (mem_waitingTasks_of_assigned hj) hnil
  | finished _ _ _ _ _ hc₁ _ _ _ hnext =>
    subst hc₁
    unfold Job.nextPhase at hnext
    split at hnext
    · cases hnext
      exact ⟨by simp, fun _ => rfl, nofun⟩
    · cases hnext
      exact ⟨by simp, nofun, fun _ => .inl rfl⟩
    · cases hnext
  | map2Reduce _ _ =>
    refine ⟨fun _ => inv'.unfinished_ne_nil (mem_waitingTasks_of_unsent (Nat.le_refl 0) ?_),
      nofun, nofun⟩
    rw [inv'.tasks_length]
    exact hreduce
  | doEnd _ => exact ⟨hsig.open_phase, hsig.shuffle, fun _ => .inr rfl⟩
  | _ => exact ⟨hsig.open_phase, hsig.shuffle, hsig.done⟩

/-- A phase whose tasks are all completed is not left any more when its end was missed. -/
theorem step_lost {a : Action} (inv : Inv files nReduce c) (hdist : c.distributed = true)
    (hnone : c.unfinished = []) (hphase : c.state = .map ∨ c.state = .reduce)
    (hs : c.step a = some c') :
    c'.distributed = true ∧ c'.unfinished = [] ∧ c'.state = c.state := by
  have hempty : ∀ {i}, i ∉ c.waitingTasks := fun h => inv.unfinished_ne_nil h hnone
  cases step_cases hs with
  | start hstate => rcases hphase with h | h <;> cases h.symm.trans hstate
  | send hlt _ => exact absurd (mem_waitingTasks_of_unsent (Nat.le_refl _) hlt) hempty
  | sent _ hfirst _ => cases hdist.symm.trans hfirst
  | assign _ _ hch _ _ => exact absurd (mem_waitingTasks_of_queued (hch ▸ List.mem_cons_self)) hempty
  | drop _ _ hch _ => exact absurd (mem_waitingTasks_of_queued (hch ▸ List.mem_cons_self)) hempty
  | completed _ _ hi _ _ _ => exact absurd (mem_waitingTasks_of_assigned hi) hempty
  | finished _ _ hi _ _ _ _ _ _ _ => exact absurd (mem_waitingTasks_of_assigned hi) hempty
  | map2Reduce _ hstate => rcases hphase with h | h <;> cases h.symm.trans hstate
  | _ => exact ⟨hdist, hnone, rfl⟩

end Job

open Job

/-- **The send of `catchTimeout` does not block**, in every run in which the channel has room during
each pass for the tasks in it, those not yet sent and those that have run out of time: there is a
slot for the task in hand and for every task that the rest of the pass sends again. -/
theorem catchTimeout_sends (files : List String) (nReduce : ℕ) {as : List Action} {c : Job}
    (hroom : Along Job.step RoomForDue (makeCoordinator files nReduce) as)
    (hrun : run Job.step (makeCoordinator files nReduce) as = some c) :
    c.tasksCh.length + c.catcher.hand.length + c.due c.now c.catcher.rest ≤ c.tasksCap ∧
      ∀ i rest order, c.catcher = .sending i rest →
        ∃ c', c.step (.catchTimeout order) = some c' := by
  have hfits : Inv files nReduce c ∧ c.Fits :=
    run_induction (P := fun c => Inv files nReduce c ∧ c.Fits)
      (fun _ _ _ h hr hs => ⟨step_inv h.1 hs, step_fits h.1 h.2 hr hs⟩) hroom hrun
      ⟨Inv.inv_makeCoordinator files nReduce, Nat.zero_le _,
        fun hdue => absurd hdue (Nat.lt_irrefl 0)⟩
  have hslots : c.tasksCh.length + c.catcher.hand.length + c.due c.now c.catcher.rest ≤
      c.tasksCap := by
    have hlength := hfits.2.length_le
    have hle := hfits.2.room
    rw [Room] at hle
    omega
  refine ⟨hslots, fun i rest order hsend => ?_⟩
  have hlt : c.tasksCh.length < c.tasksCap := by
    rw [hsend, Catcher.hand, List.length_singleton] at hslots
    omega
  refine ⟨{ c with tasksCh := c.tasksCh ++ [i], catcher := .ranging rest }, ?_⟩
  rw [Job.step, Job.catchTimeout, hsend]
  exact if_pos hlt

theorem catchTimeout_sends_lateFinishRun :
    ∃ c, run Job.step (makeCoordinator ["a"] 1) (lateFinishRun.take 12) = some c ∧
      c.catcher = .sending 0 [] ∧
      c.tasksCh.length + c.catcher.hand.length + c.due c.now c.catcher.rest ≤ c.tasksCap := by
  have hroom : Along Job.step RoomForDue (makeCoordinator ["a"] 1) (lateFinishRun.take 12) := by
    decide +kernel
  have h : ∃ c, run Job.step (makeCoordinator ["a"] 1) (lateFinishRun.take 12) = some c ∧
      c.catcher = .sending 0 [] := by
    decide +kernel
  obtain ⟨c, hc, hsend⟩ := h
  exact ⟨c, hc, hsend, (catchTimeout_sends ["a"] 1 hroom hc).1⟩

/-- Four map tasks and a channel of two. The worker of the first has run out of time when another
one takes the second, and the distributing goroutine fills the channel before the pass begins. -/
def fullChannelRun : List Action :=
  [.start, .taskBegin, .taskBegin, .askTask, .taskBegin, .tick (11 * second), .askTask, .taskBegin,
    .catchTimeout [0, 1], .catchTimeout []]

/-- The coordinator is locked up: the channel is full, and stays so whatever happens next. -/
theorem fullChannelRun_blocks :
    ∃ c, run Job.step (makeCoordinator ["a", "b", "c", "d"] 1) fullChannelRun = some c ∧
      c.catcher = .sending 0 [1] ∧ c.tasksCh.length = c.tasksCap ∧
      ∀ as c', run Job.step c as = some c' →
        c'.catcher = .sending 0 [1] ∧ c'.tasksCh.length = c'.tasksCap := by
  have h : ∃ c, run Job.step (makeCoordinator ["a", "b", "c", "d"] 1) fullChannelRun = some c ∧
      c.catcher = .sending 0 [1] ∧ c.tasksCh.length = c.tasksCap := by
    decide +kernel
  obtain ⟨c, hc, hsend, hfull⟩ := h
  refine ⟨c, hc, hsend, hfull, fun as c' hr => ?_⟩
  exact run_invariant (P := fun c => c.catcher = .sending 0 [1] ∧ c.tasksCh.length = c.tasksCap)
    (fun _ _ _ h hs => step_blocked h.1 h.2 hs) hr ⟨hsend, hfull⟩

/-- **No phase change is lost**, when there are tasks in both phases and the last task of each is
completed after the token of the distributing goroutine: once every task is completed, the
coordinator has left the phase and signalled it. -/
theorem phase_change_signalled {files : List String} {nReduce : ℕ} (hfiles : files ≠ [])
    (hreduce : 0 < nReduce) {as : List Action} {c : Job}
    (htoken : Along Job.step TokenFirst (makeCoordinator files nReduce) as)
    (hrun : run Job.step (makeCoordinator files nReduce) as = some c)
    (hall : ∀ i < c.tasks.length, c.Completed i) :
    c.state = .shuffle ∧ c.map2ReduceCh = true ∨
      c.state = .done ∧ (c.doneCh = true ∨ c.ended = true) := by
  have hsig : Inv files nReduce c ∧ c.Signalled :=
    run_induction (P := fun c => Inv files nReduce c ∧ c.Signalled)
      (fun _ _ _ h ht hs => ⟨step_inv h.1 hs, step_signalled hreduce h.1 h.2 ht hs⟩) htoken hrun
      ⟨Inv.inv_makeCoordinator files nReduce, signalled_makeCoordinator hfiles⟩
  have hnone : c.unfinished = [] :=
    List.eq_nil_iff_forall_not_mem.2 fun i hi =>
      (mem_unfinished.1 hi).2 (hall i (mem_unfinished.1 hi).1)
  have hopen := fun h => hsig.2.open_phase h hnone
  cases hstate : c.state with
  | wait => exact absurd (.inl hstate) hopen
  | map => exact absurd (.inr (.inl hstate)) hopen
  | reduce => exact absurd (.inr (.inr hstate)) hopen
  | shuffle => exact .inl ⟨rfl, hsig.2.shuffle hstate⟩
  | done => exact .inr ⟨rfl, hsig.2.done hstate⟩

theorem phase_change_signalled_lateFinishRun :
    ∃ c, run Job.step (makeCoordinator ["a"] 1) lateFinishRun = some c ∧ c.distributed = true ∧
      (c.state = .shuffle ∧ c.map2ReduceCh = true ∨
        c.state = .done ∧ (c.doneCh = true ∨ c.ended = true)) := by
  have htoken : Along Job.step TokenFirst (makeCoordinator ["a"] 1) lateFinishRun := by
    decide +kernel
  have h : ∃ c, run Job.step (makeCoordinator ["a"] 1) lateFinishRun = some c ∧
      c.distributed = true ∧ c.unfinished = [] := by
    decide +kernel
  obtain ⟨c, hc, hdist, hnone⟩ := h
  refine ⟨c, hc, hdist, phase_change_signalled (by decide) (by decide) htoken hc fun i hi => ?_⟩
  by_contra hnot
  exact List.ne_nil_of_mem (mem_unfinished.2 ⟨hi, hnot⟩) hnone

/-- The last task is completed before the token: the coordinator stays in `MAP` for good. It does so
too when there is no task at all. -/
theorem phase_change_lost :
    (∃ c, run Job.step (makeCoordinator ["a"] 1)
        [.start, .taskBegin, .askTask, .finishTask 0, .taskBegin] = some c ∧
      c.distributed = true ∧ c.unfinished = [] ∧ c.state = .map ∧
      ∀ as c', run Job.step c as = some c' → c'.state = .map) ∧
    ∃ c, run Job.step (makeCoordinator [] 1) [.start, .taskBegin] = some c ∧
      c.distributed = true ∧ c.unfinished = [] ∧ c.state = .map ∧
      ∀ as c', run Job.step c as = some c' → c'.state = .map := by
  have hstays : ∀ {files : List String} {as : List Action} {c : Job},
      run Job.step (makeCoordinator files 1) as = some c → c.distributed = true →
      c.unfinished = [] → c.state = .map →
      ∀ as c', run Job.step c as = some c' → c'.state = .map := by
    intro files as c hc hdist hnone hstate as c' hr
    have inv : Inv files 1 c :=
      run_invariant (fun _ _ _ inv hs => step_inv inv hs) hc (Inv.inv_makeCoordinator files 1)
    have hlost := run_invariant
      (P := fun c => Inv files 1 c ∧ c.distributed = true ∧ c.unfinished = [] ∧ c.state = .map)
      (fun _ _ _ h hs =>
        have hlost := step_lost h.1 h.2.1 h.2.2.1 (.inl h.2.2.2) hs
        ⟨step_inv h.1 hs, hlost.1, hlost.2.1, hlost.2.2.trans h.2.2.2⟩)
      hr ⟨inv, hdist, hnone, hstate⟩
    exact hlost.2.2.2
  constructor
  · have h : ∃ c, run Job.step (makeCoordinator ["a"] 1)
        [.start, .taskBegin, .askTask, .finishTask 0, .taskBegin] = some c ∧
        c.distributed = true ∧ c.unfinished = [] ∧ c.state = .map := by
      decide +kernel
    obtain ⟨c, hc, hdist, hnone, hstate⟩ := h
    exact ⟨c, hc, hdist, hnone, hstate, hstays hc hdist hnone hstate⟩
  · have h : ∃ c, run Job.step (makeCoordinator [] 1) [.start, .taskBegin] = some c ∧
        c.distributed = true ∧ c.unfinished = [] ∧ c.state = .map := by
      decide +kernel
    obtain ⟨c, hc, hdist, hnone, hstate⟩ := h
    exact ⟨c, hc, hdist, hnone, hstate, hstays hc hdist hnone hstate⟩

end DistSys.MapReduce
