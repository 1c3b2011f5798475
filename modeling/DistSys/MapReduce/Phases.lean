import DistSys.Lib.Runs
import DistSys.MapReduce.Invariant

/-!
# Phases of a MapReduce job

The places of a task (`Place`) are the summands of `places`, so the invariant gives each task
exactly one. What a step does to the tasks and the phase is read off its constructor
(`step_effect`).

Main result: `phase_safety`.
-/

namespace DistSys.MapReduce

namespace Job

variable {c c' : Job} {files : List String} {nReduce i : ℕ}

inductive Place where
  /-- The task has not been sent to the channel, or is being sent again by `catchTimeout`. -/
  | unsent
  | queued
  | assigned (workerId : ℕ)
  | completed

/-- The task at index `i` is in the place. -/
def At (c : Job) (i : ℕ) : Place → Prop
  | .unsent => c.nextTask ≤ i ∧ i < c.tasks.length ∨ i ∈ c.catcher.hand
  | .queued => i ∈ c.tasksCh
  | .assigned workerId => (workerId, i) ∈ c.workerIdTask
  | .completed => c.Completed i

/-- The summand of `places` for a place. -/
def share (c : Job) (i : ℕ) : Place → ℕ
  | .unsent => Job.unsent c.nextTask c.tasks.length i + c.catcher.hand.count i
  | .queued => c.tasksCh.count i
  | .assigned _ => (c.workerIdTask.map Prod.snd).count i
  | .completed => Job.completed c.tasks i

theorem At.share_pos {p : Place} (h : c.At i p) : 0 < c.share i p := by
  cases p with
  | unsent =>
    rcases h with hnext | hhand
    · rw [share, Job.unsent, if_pos hnext]
      omega
    · exact Nat.add_pos_right _ (List.count_pos_iff.2 hhand)
  | queued => exact List.count_pos_iff.2 h
  | assigned w => exact List.count_pos_iff.2 (List.mem_map.2 ⟨_, h, rfl⟩)
  | completed => exact Nat.lt_of_lt_of_eq Nat.one_pos (completed_eq_one.2 h).symm

/-- Two ids would be two places. -/
theorem Inv.id_unique (inv : Inv files nReduce c) {w w' : ℕ} (h : (w, i) ∈ c.workerIdTask)
    (h' : (w', i) ∈ c.workerIdTask) : w = w' := by
  by_contra hne
  have hmem : (w', i) ∈ c.unassign w := mem_filter_ne.2 ⟨h', Ne.symm hne⟩
  have hpos : 0 < ((c.unassign w).map Prod.snd).count i :=
    List.count_pos_iff.2 (List.mem_map.2 ⟨_, hmem, rfl⟩)
  have hcount := inv.count_unassign h i
  have hplaces := inv.places_le i
  rw [if_pos rfl] at hcount
  rw [Job.places] at hplaces
  omega

theorem Inv.at_unique (inv : Inv files nReduce c) {p q : Place} (hp : c.At i p) (hq : c.At i q) :
    p = q := by
  have hplaces := inv.places_le i
  have hp' := hp.share_pos
  have hq' := hq.share_pos
  rw [Job.places] at hplaces
  cases p <;> cases q
  case assigned.assigned w w' => rw [inv.id_unique hp hq]
  all_goals first
    | rfl
    | simp only [share] at hp' hq'
      omega

theorem Inv.exists_at (inv : Inv files nReduce c) (hi : i < c.tasks.length) : ∃ p, c.At i p := by
  have hplaces := inv.places i
  rw [if_pos hi, Job.places] at hplaces
  by_cases hqueued : i ∈ c.tasksCh
  · exact ⟨.queued, hqueued⟩
  by_cases hassigned : i ∈ c.workerIdTask.map Prod.snd
  · obtain ⟨⟨w, j⟩, hmem, rfl⟩ := List.mem_map.1 hassigned
    exact ⟨.assigned w, hmem⟩
  by_cases hcompleted : c.Completed i
  · exact ⟨.completed, hcompleted⟩
  refine ⟨.unsent, ?_⟩
  rw [List.count_eq_zero_of_not_mem hqueued, List.count_eq_zero_of_not_mem hassigned] at hplaces
  by_cases hhand : i ∈ c.catcher.hand
  · exact .inr hhand
  · rw [List.count_eq_zero_of_not_mem hhand, completed_eq_zero.2 hcompleted,
      Job.unsent] at hplaces
    by_contra hsent
    rw [if_neg fun h => hsent (.inl h)] at hplaces
    cases hplaces

theorem Inv.nodup_tasksCh (inv : Inv files nReduce c) : c.tasksCh.Nodup := by
  rw [List.nodup_iff_count_le_one]
  intro i
  have hplaces := inv.places_le i
  rw [Job.places] at hplaces
  omega

/-- What a step does to the tasks and the phase. -/
theorem step_effect {a : Action} (hs : c.step a = some c') :
    c'.tasks = c.tasks ∧ (c'.state = c.state ∨ c.state = .wait ∧ c'.state = .map) ∨
      (∃ i, c'.tasks = c.tasks.modify i c.startTask ∧ c'.state = c.state) ∨
      (∃ k r i t, a = .finishTask k ∧ c.working[k]? = some r ∧ (r.workerId, i) ∈ c.workerIdTask ∧
        c.tasks[i]? = some t ∧ r.taskBeginTime / second = t.startWorkTime / second ∧
        c'.tasks = c.tasks.modify i (fun task => { task with status := .completed }) ∧
        (c'.state = c.state ∨ c.state = .map ∧ c'.state = .shuffle ∨
          c.state = .reduce ∧ c'.state = .done)) ∨
      c.state = .shuffle ∧ c'.state = .reduce ∧ c'.tasks = createReduceTask c.nReduce := by
  cases step_cases hs with
  | start hstate => exact .inl ⟨rfl, .inr ⟨hstate, rfl⟩⟩
  | assign hrun hphase hch hids ht => exact .inr (.inl ⟨_, rfl, rfl⟩)
  | drop hrun hphase hch hnone => exact .inr (.inl ⟨_, rfl, rfl⟩)
  | completed hrun hr hi ht htime hmore =>
    exact .inr (.inr (.inl ⟨_, _, _, _, rfl, hr, hi, ht, htime, rfl, .inl rfl⟩))
  | finished hrun hr hi ht htime hc₁ hsent hch hids hnext =>
    subst hc₁
    refine .inr (.inr (.inl ⟨_, _, _, _, rfl, hr, hi, ht, htime, ?_⟩))
    unfold Job.nextPhase at hnext
    split at hnext
    · rename_i hstate
      cases hnext
      exact ⟨rfl, .inr (.inl ⟨hstate, rfl⟩)⟩
    · rename_i hstate
      cases hnext
      exact ⟨rfl, .inr (.inr ⟨hstate, rfl⟩)⟩
    · cases hnext
  | map2Reduce hrun hstate => exact .inr (.inr (.inr ⟨hstate, rfl, rfl⟩))
  | _ => exact .inl ⟨rfl, .inl rfl⟩

/-- A task becomes completed only by the call of a worker that was given it. -/
theorem Inv.completed_by (inv : Inv files nReduce c) {a : Action} (hs : c.step a = some c')
    {t t' : Task} (ht : c.tasks[i]? = some t) (ht' : c'.tasks[i]? = some t')
    (hnot : t.status ≠ .completed) (hdone : t'.status = .completed) :
    ∃ k r, a = .finishTask k ∧ c.working[k]? = some r ∧ (r.workerId, i) ∈ c.workerIdTask ∧
      r.task.taskId = t.taskId := by
  rcases step_effect hs with ⟨htasks, -⟩ | ⟨j, htasks, -⟩ |
    ⟨k, r, j, tj, rfl, hr, hj, htj, htime, htasks, -⟩ | ⟨-, -, htasks⟩
  · rw [htasks, ht, Option.some.injEq] at ht'
    exact absurd (ht' ▸ hdone) hnot
  · rw [htasks] at ht'
    rcases getElem?_modify_cases ht' with ⟨-, t₀, -, rfl⟩ | ⟨-, hold⟩
    · cases hdone
    · rw [ht, Option.some.injEq] at hold
      exact absurd (hold ▸ hdone) hnot
  · rw [htasks] at ht'
    rcases getElem?_modify_cases ht' with ⟨rfl, -⟩ | ⟨-, hold⟩
    · obtain rfl : tj = t := Option.some.inj (htj.symm.trans ht)
      exact ⟨k, r, rfl, hr, hj,
        (inv.current_of_match (List.mem_of_getElem? hr) hj htj htime).2.symm⟩
    · rw [ht, Option.some.injEq] at hold
      exact absurd (hold ▸ hdone) hnot
  · rw [htasks, createReduceTask, List.getElem?_map, Option.map_eq_some_iff] at ht'
    obtain ⟨j, -, rfl⟩ := ht'
    cases hdone

/-- In a phase that is finished every task is completed. -/
theorem Inv.all_finished (inv : Inv files nReduce c) (h : c.state = .shuffle ∨ c.state = .done) :
    ∀ i < c.state.count files nReduce,
      ∃ t, c.tasks[i]? = some t ∧ t.taskId = c.state.taskId i ∧ t.status = .completed := by
  intro i hi
  rw [← inv.tasks_length] at hi
  obtain ⟨t, ht, hdone⟩ := (inv.finished h).2.2 i hi
  exact ⟨t, ht, inv.taskId i t ht, hdone⟩

end Job

open Job

/-- **Phase safety.** Every task is in exactly one place, and at most once in the channel. A task
becomes completed only by the `FinishTask` of a worker that was given this task. The coordinator
leaves `MAP` only when every map task is completed, and is in `DONE` only when every reduce task
is. -/
theorem phase_safety (files : List String) (nReduce : ℕ) {as : List Action} {c : Job}
    (hrun : run Job.step (makeCoordinator files nReduce) as = some c) :
    (∀ i < c.tasks.length, ∃! p, c.At i p) ∧ c.tasksCh.Nodup ∧
      (∀ (a : Action) (c' : Job) (i : ℕ) (t t' : Task), c.step a = some c' →
        c.tasks[i]? = some t → c'.tasks[i]? = some t' → t.status ≠ .completed →
        t'.status = .completed →
        ∃ k r, a = .finishTask k ∧ c.working[k]? = some r ∧ (r.workerId, i) ∈ c.workerIdTask ∧
          r.task.taskId = t.taskId) ∧
      (∀ (a : Action) (c' : Job), c.step a = some c' → c.state = .map → c'.state ≠ .map →
        c'.state = .shuffle ∧ ∀ i < files.length,
          ∃ t, c'.tasks[i]? = some t ∧ t.taskId = i ∧ t.status = .completed) ∧
      (c.state = .done → ∀ i < nReduce,
        ∃ t, c.tasks[i]? = some t ∧ t.taskId = -i - 1 ∧ t.status = .completed) := by
  have inv : Inv files nReduce c :=
    run_invariant (fun _ _ _ inv hs => step_inv inv hs) hrun
      (Inv.inv_makeCoordinator files nReduce)
  refine ⟨fun i hi => ?_, inv.nodup_tasksCh, ?_, ?_, fun hdone => ?_⟩
  · obtain ⟨p, hp⟩ := inv.exists_at hi
    exact ⟨p, hp, fun q hq => inv.at_unique hq hp⟩
  · exact fun a c' i t t' hs ht ht' hnot hdone => inv.completed_by hs ht ht' hnot hdone
  · intro a c' hs hmap hleft
    have hshuffle : c'.state = .shuffle := by
      rcases step_effect hs with ⟨-, h | ⟨h, -⟩⟩ | ⟨-, -, h⟩ |
        ⟨-, -, -, -, -, -, -, -, -, -, h | ⟨-, h⟩ | ⟨h, -⟩⟩ | ⟨h, -⟩
      · exact absurd (h.trans hmap) hleft
      · cases hmap.symm.trans h
      · exact absurd (h.trans hmap) hleft
      · exact absurd (h.trans hmap) hleft
      · exact h
      · cases hmap.symm.trans h
      · cases hmap.symm.trans h
    have hall := (step_inv inv hs).all_finished (.inl hshuffle)
    rw [hshuffle] at hall
    exact ⟨hshuffle, hall⟩
  · have hall := inv.all_finished (.inr hdone)
    rw [hdone] at hall
    exact hall

/-- One map task and one reduce task. The worker of the reduce task runs out of time, and the call
that it makes after the task was given to another worker with the same id is ignored. -/
def lateFinishRun : List Action :=
  [.start, .taskBegin, .taskBegin, .askTask, .finishTask 0, .map2Reduce, .taskBegin, .taskBegin,
    .askTask, .tick (11 * second), .catchTimeout [0], .catchTimeout [], .catchTimeout [],
    .catchTimeout [], .askTask, .finishTask 0, .finishTask 0]

theorem phase_safety_lateFinishRun :
    ∃ c : Job, run Job.step (makeCoordinator ["a"] 1) lateFinishRun = some c ∧ c.state = .done ∧
      ∃ t : Task, c.tasks[0]? = some t ∧ t.taskId = -1 ∧ t.status = .completed := by
  have h : ∃ c : Job, run Job.step (makeCoordinator ["a"] 1) lateFinishRun = some c ∧
      c.state = .done := by
    decide +kernel
  obtain ⟨c, hc, hdone⟩ := h
  exact ⟨c, hc, hdone, (phase_safety ["a"] 1 hc).2.2.2.2 hdone 0 (by decide)⟩

end DistSys.MapReduce
