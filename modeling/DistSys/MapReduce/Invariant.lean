import DistSys.MapReduce.Steps

/-!
# The invariant of the coordinator

Every task is in exactly one place: not yet sent, in the channel, assigned to a worker id, or
completed (`places`). There are as many worker ids as tasks, so a task is never dropped for want of
an id (`Inv.exists_id`).

A call of `FinishTask` is matched by its worker id and the second in which its task began. The
worker ids are used again. A worker that has not called `FinishTask` is the one its id is assigned
to (`Current`), or its task began more than ten seconds before the id was assigned again
(`Expired`): the only other way to free an id is the worker's own call. So the matched worker is the
one that was given the task (`Inv.current_of_match`).

Main result: `step_inv`.
-/

namespace DistSys.MapReduce

namespace State

/-- The id of the task at an index. -/
def taskId (i : ℕ) : State → ℤ
  | .wait | .map | .shuffle => i
  | .reduce | .done => -i - 1

/-- The number of tasks. -/
def count (files : List String) (nReduce : ℕ) : State → ℕ
  | .wait | .map | .shuffle => files.length
  | .reduce | .done => nReduce

end State

theorem abs_natCast (i : ℕ) : abs i = i := by
  rw [abs, if_neg (by omega), Int.toNat_natCast]

theorem abs_neg_sub_one (i : ℕ) : abs (-i - 1) = i := by
  rw [abs, if_pos (by omega)]
  omega

theorem abs_taskId (i : ℕ) (s : State) : abs (s.taskId i) = i := by
  cases s with
  | wait => exact abs_natCast i
  | map => exact abs_natCast i
  | shuffle => exact abs_natCast i
  | reduce => exact abs_neg_sub_one i
  | done => exact abs_neg_sub_one i

namespace Job

variable {c c' : Job} {files : List String} {nReduce i : ℕ}

def Completed (c : Job) (i : ℕ) : Prop := ∃ t, c.tasks[i]? = some t ∧ t.status = .completed

/-- `1` if the task has not been sent by the distributing goroutine. -/
def unsent (nextTask length i : ℕ) : ℕ := if nextTask ≤ i ∧ i < length then 1 else 0

/-- `1` if the task is completed. -/
def completed (tasks : List Task) (i : ℕ) : ℕ :=
  if tasks[i]?.map Task.status = some .completed then 1 else 0

/-- In how many places the task is. -/
def places (c : Job) (i : ℕ) : ℕ :=
  unsent c.nextTask c.tasks.length i + c.catcher.hand.count i + c.tasksCh.count i +
    (c.workerIdTask.map Prod.snd).count i + completed c.tasks i

theorem completed_eq_one : completed c.tasks i = 1 ↔ c.Completed i := by
  simp only [completed, Completed, ite_eq_left_iff, Option.map_eq_some_iff]
  simp

theorem completed_eq_zero : completed c.tasks i = 0 ↔ ¬ c.Completed i := by
  rw [← completed_eq_one, completed]
  split <;> simp

theorem unsent_zero (length i : ℕ) : unsent 0 length i = if i < length then 1 else 0 := by
  unfold unsent
  split_ifs <;> omega

theorem unsent_succ {nextTask length : ℕ} (h : nextTask < length) (i : ℕ) :
    unsent nextTask length i =
      unsent (nextTask + 1) length i + if nextTask = i then 1 else 0 := by
  unfold unsent
  split_ifs <;> omega

/-! ## One task -/

section
variable {tasks : List Task} {f : Task → Task} {j : ℕ}

theorem getElem?_modify_self : (tasks.modify i f)[i]? = tasks[i]?.map f := by
  simp

theorem getElem?_modify_of_ne (h : i ≠ j) : (tasks.modify i f)[j]? = tasks[j]? := by
  simp [h]

theorem completed_modify_of_ne (h : i ≠ j) : completed (tasks.modify i f) j = completed tasks j := by
  rw [completed, getElem?_modify_of_ne h, completed]

theorem getElem?_modify_cases {t' : Task} (h : (tasks.modify i f)[j]? = some t') :
    i = j ∧ (∃ t, tasks[i]? = some t ∧ t' = f t) ∨ i ≠ j ∧ tasks[j]? = some t' := by
  by_cases hij : i = j
  · subst hij
    rw [getElem?_modify_self, Option.map_eq_some_iff] at h
    obtain ⟨t, ht, rfl⟩ := h
    exact .inl ⟨rfl, t, ht, rfl⟩
  · rw [getElem?_modify_of_ne hij] at h
    exact .inr ⟨hij, h⟩

theorem taskId_modify {s : State} (h : ∀ j t, tasks[j]? = some t → t.taskId = s.taskId j)
    {t' : Task} (ht' : (tasks.modify i f)[j]? = some t') (hf : ∀ t, (f t).taskId = t.taskId) :
    t'.taskId = s.taskId j := by
  rcases getElem?_modify_cases ht' with ⟨rfl, t, ht, rfl⟩ | ⟨-, hold⟩
  · exact (hf t).trans (h i t ht)
  · exact h j t' hold

end

/-! ## The invariant -/

/-- The worker id is assigned to the worker. -/
def Current (c : Job) (r : AskTaskReply) : Prop :=
  ∃ i t, (r.workerId, i) ∈ c.workerIdTask ∧ c.tasks[i]? = some t ∧
    t.startWorkTime = r.taskBeginTime ∧ t.taskId = r.task.taskId

/-- The worker has run out of time, and its id was assigned again only later. -/
def Expired (c : Job) (r : AskTaskReply) : Prop :=
  r.taskBeginTime + 10 * second < c.now ∧
    ∀ i t, (r.workerId, i) ∈ c.workerIdTask → c.tasks[i]? = some t →
      r.taskBeginTime + 10 * second < t.startWorkTime

theorem Expired.tick {r : AskTaskReply} (h : c.Expired r) (d : ℕ) :
    ({ c with now := c.now + d } : Job).Expired r :=
  ⟨Nat.lt_of_lt_of_le h.1 (Nat.le_add_right _ _), h.2⟩

structure Inv (files : List String) (nReduce : ℕ) (c : Job) : Prop where
  inputFiles : c.inputFiles = files
  nReduce_eq : c.nReduce = nReduce
  tasks_length : c.tasks.length = c.state.count files nReduce
  taskId : ∀ i t, c.tasks[i]? = some t → t.taskId = c.state.taskId i
  places : ∀ i, c.places i = if i < c.tasks.length then 1 else 0
  next_le : c.nextTask ≤ c.tasks.length
  sent : c.sendClosed = true → c.nextTask = c.tasks.length ∧ c.distributed = true
  /-- The tasks that are not completed, counted by place. -/
  outstanding : (c.tasks.length - c.nextTask) + c.catcher.hand.length + c.tasksCh.length +
    c.workerIdTask.length ≤ c.tasks.length
  ids_nodup : (c.workerIdCh ++ c.workerIdTask.map Prod.fst).Nodup
  ids_length : c.workerIdCh.length + c.workerIdTask.length = c.tasks.length
  workers : ∀ r ∈ c.working, c.Current r ∨ c.Expired r
  /-- At most one of the workers with the same id has it now. -/
  one_current : c.working.Pairwise fun r r' =>
    r.workerId = r'.workerId → c.Expired r ∨ c.Expired r'
  finished : c.state = .shuffle ∨ c.state = .done →
    c.sendClosed = false ∧ c.distributed = true ∧ ∀ i < c.tasks.length, c.Completed i

/-! ## Consequences -/

namespace Inv

theorem keys_nodup (inv : Inv files nReduce c) : (c.workerIdTask.map Prod.fst).Nodup :=
  (List.nodup_append.1 inv.ids_nodup).2.1

theorem places_le (inv : Inv files nReduce c) (i : ℕ) : c.places i ≤ 1 := by
  rw [inv.places]
  split
  · exact Nat.le_refl 1
  · exact Nat.zero_le 1

theorem lt_of_mem_tasksCh (inv : Inv files nReduce c) {i : ℕ} (h : i ∈ c.tasksCh) :
    i < c.tasks.length := by
  have hplaces := inv.places i
  have hpos := List.count_pos_iff.2 h
  rw [Job.places] at hplaces
  by_contra hge
  rw [if_neg hge] at hplaces
  omega

/-- There is an id for every task in the channel: fewer ids than tasks are assigned. -/
theorem exists_id (inv : Inv files nReduce c) {i : ℕ} (h : i ∈ c.tasksCh) : c.workerIdCh ≠ [] := by
  intro hnone
  have hout := inv.outstanding
  have hlength := inv.ids_length
  have hpos := List.length_pos_of_mem h
  rw [hnone, List.length_nil] at hlength
  omega

/-- A task that is taken from the channel is assigned. -/
theorem not_dropped (inv : Inv files nReduce c) {tasksCh : List ℕ}
    (hch : c.tasksCh = i :: tasksCh) :
    ¬ (c.workerIdCh = [] ∨ c.tasks[i]? = none) := by
  have hi : i ∈ c.tasksCh := hch ▸ List.mem_cons_self
  rintro (hids | ht)
  · exact inv.exists_id hi hids
  · exact absurd (inv.lt_of_mem_tasksCh hi) (Nat.not_lt.2 (List.getElem?_eq_none_iff.1 ht))

/-- A task in the channel is not assigned. -/
theorem not_assigned (inv : Inv files nReduce c) {i w : ℕ} (h : i ∈ c.tasksCh) :
    (w, i) ∉ c.workerIdTask := by
  intro hmem
  have hplaces := inv.places_le i
  have hpos := List.count_pos_iff.2 h
  have hpos' : 0 < (c.workerIdTask.map Prod.snd).count i :=
    List.count_pos_iff.2 (List.mem_map.2 ⟨_, hmem, rfl⟩)
  rw [Job.places] at hplaces
  omega

/-- An assigned task is not completed. -/
theorem not_completed (inv : Inv files nReduce c) {i w : ℕ} (h : (w, i) ∈ c.workerIdTask) :
    ¬ c.Completed i := by
  intro hdone
  have hplaces := inv.places_le i
  have hpos : 0 < (c.workerIdTask.map Prod.snd).count i :=
    List.count_pos_iff.2 (List.mem_map.2 ⟨_, h, rfl⟩)
  rw [Job.places, completed_eq_one.2 hdone] at hplaces
  omega

/-- The worker whose call is matched is the one that has the id. -/
theorem current_of_match (inv : Inv files nReduce c) {r : AskTaskReply} (hr : r ∈ c.working) {i : ℕ}
    {t : Task} (hi : (r.workerId, i) ∈ c.workerIdTask) (ht : c.tasks[i]? = some t)
    (htime : r.taskBeginTime / second = t.startWorkTime / second) :
    ¬ c.Expired r ∧ t.taskId = r.task.taskId := by
  have hnot : ¬ c.Expired r := by
    intro hexp
    have hlt := hexp.2 i t hi ht
    unfold second at htime hlt
    omega
  obtain ⟨i', t', hi', ht', -, hid⟩ := (inv.workers r hr).resolve_right hnot
  obtain rfl := value_unique inv.keys_nodup hi hi'
  rw [ht, Option.some.injEq] at ht'
  exact ⟨hnot, by rw [ht', hid]⟩

/-! ## The steps -/

theorem inv_makeCoordinator (files : List String) (nReduce : ℕ) :
    Inv files nReduce (makeCoordinator files nReduce) where
  inputFiles := rfl
  nReduce_eq := rfl
  tasks_length := by simp [makeCoordinator, createMapTask, State.count]
  taskId i t ht := by
    simp only [makeCoordinator, createMapTask, List.getElem?_mapIdx, Option.map_eq_some_iff] at ht
    obtain ⟨f, -, rfl⟩ := ht
    rfl
  places i := by
    have hidle : completed (createMapTask files) i = 0 := by
      simp [completed, createMapTask]
    exact (congrArg _ hidle).trans (unsent_zero _ i)
  next_le := Nat.zero_le _
  sent := nofun
  outstanding := by simp [makeCoordinator, Catcher.hand]
  ids_nodup := by simp [makeCoordinator, List.nodup_range]
  ids_length := by simp [makeCoordinator, createMapTask]
  workers := by simp [makeCoordinator]
  one_current := by simp [makeCoordinator]
  finished := by simp [makeCoordinator]

/-- The distributing goroutine sends the next task. -/
theorem send (inv : Inv files nReduce c) (hlt : c.nextTask < c.tasks.length) :
    Inv files nReduce { c with tasksCh := c.tasksCh ++ [c.nextTask], nextTask := c.nextTask + 1 } :=
  { inv with
    places := by
      intro i
      rw [← inv.places i]
      simp only [Job.places, List.count_append, List.count_singleton, beq_iff_eq, unsent_succ hlt i]
      omega
    next_le := hlt
    sent := fun h => absurd (inv.sent h).1 (Nat.ne_of_lt hlt)
    outstanding := by
      have hout := inv.outstanding
      simp only [List.length_append, List.length_singleton]
      omega }

/-- The distributing goroutine sends its token. -/
theorem token (inv : Inv files nReduce c) (hge : ¬ c.nextTask < c.tasks.length)
    (hfirst : c.distributed = false) :
    Inv files nReduce { c with sendClosed := true, distributed := true } :=
  { inv with
    sent := fun _ => ⟨Nat.le_antisymm inv.next_le (Nat.le_of_not_lt hge), rfl⟩
    finished := by
      intro hstate
      have hdist := (inv.finished hstate).2.1
      rw [hfirst] at hdist
      cases hdist }

section assign

variable {w : ℕ} {tasksCh ws : List ℕ} {t : Task}

/-- The id of a new assignment was free. -/
theorem unassign_of_free (inv : Inv files nReduce c) (hids : c.workerIdCh = w :: ws) :
    c.workerIdTask.filter (fun p => p.1 ≠ w) = c.workerIdTask := by
  have hnodup := inv.ids_nodup
  rw [hids, List.cons_append, List.nodup_cons, List.mem_append, not_or] at hnodup
  exact filter_ne_eq_self hnodup.1.2

theorem mem_assign (inv : Inv files nReduce c) (hids : c.workerIdCh = w :: ws) {w' j : ℕ} :
    (w', j) ∈ ((c.popTask i tasksCh).assign w ws i (c.startTask t)).workerIdTask ↔
      (w', j) = (w, i) ∨ (w', j) ∈ c.workerIdTask := by
  rw [← inv.unassign_of_free hids]
  exact List.mem_cons

/-- The tasks that are assigned stay as they are. -/
theorem getElem?_assign (inv : Inv files nReduce c) (hi : i ∈ c.tasksCh) {w' j : ℕ}
    (hj : (w', j) ∈ c.workerIdTask) : (c.tasks.modify i c.startTask)[j]? = c.tasks[j]? := by
  refine getElem?_modify_of_ne ?_
  rintro rfl
  exact inv.not_assigned hi hj

theorem current_assign (inv : Inv files nReduce c) (hi : i ∈ c.tasksCh)
    (hids : c.workerIdCh = w :: ws) {r : AskTaskReply} (h : c.Current r) :
    ((c.popTask i tasksCh).assign w ws i (c.startTask t)).Current r := by
  obtain ⟨j, t', hj, ht', hbegin, hid⟩ := h
  exact ⟨j, t', (inv.mem_assign hids).2 (.inr hj), (inv.getElem?_assign hi hj).trans ht', hbegin, hid⟩

theorem expired_assign (inv : Inv files nReduce c) (hi : i ∈ c.tasksCh)
    (hids : c.workerIdCh = w :: ws) (ht : c.tasks[i]? = some t) {r : AskTaskReply}
    (h : c.Expired r) : ((c.popTask i tasksCh).assign w ws i (c.startTask t)).Expired r := by
  refine ⟨h.1, fun j t' hj ht' => ?_⟩
  rcases (inv.mem_assign hids).1 hj with hnew | hold
  · -- the new assignment begins now
    cases hnew
    have hget : (c.tasks.modify i c.startTask)[i]? = some (c.startTask t) := by
      rw [getElem?_modify_self, ht, Option.map_some]
    obtain rfl : t' = c.startTask t := Option.some.inj (ht'.symm.trans hget)
    exact h.1
  · exact h.2 j t' hold ((inv.getElem?_assign hi hold).symm.trans ht')

theorem completed_assign (inv : Inv files nReduce c) (hi : i ∈ c.tasksCh)
    (ht : c.tasks[i]? = some t) (j : ℕ) :
    completed (c.tasks.modify i c.startTask) j = completed c.tasks j := by
  by_cases hij : i = j
  · subst hij
    have hle := inv.places_le i
    have hpos := List.count_pos_iff.2 hi
    rw [Job.places] at hle
    rw [completed, getElem?_modify_self, ht, Option.map_some, Option.map_some,
      if_neg (by simp [startTask])]
    omega
  · exact completed_modify_of_ne hij

/-- A task of the channel gets a worker id. -/
theorem assign (inv : Inv files nReduce c)
    (hphase : c.state = .map ∨ c.state = .reduce) (hch : c.tasksCh = i :: tasksCh)
    (hids : c.workerIdCh = w :: ws) (ht : c.tasks[i]? = some t) :
    Inv files nReduce ((c.popTask i tasksCh).assign w ws i (c.startTask t)) := by
  have hi : i ∈ c.tasksCh := by simp [hch]
  have hout := inv.outstanding
  have hlength := inv.ids_length
  have hnodup := inv.ids_nodup
  rw [hch, List.length_cons] at hout
  rw [hids, List.length_cons] at hlength
  rw [hids, List.cons_append, List.nodup_cons, List.mem_append, not_or] at hnodup
  have hfree := inv.unassign_of_free hids
  exact {
    inputFiles := inv.inputFiles
    nReduce_eq := inv.nReduce_eq
    tasks_length := (List.length_modify _ _ _).trans inv.tasks_length
    taskId := fun _ _ ht' => taskId_modify inv.taskId ht' fun _ => rfl
    places := by
      intro j
      have hplaces := inv.places j
      simp only [Job.places, hch, List.count_cons] at hplaces
      simp only [Job.places, Job.assign, Job.unassign, popTask, hfree, List.map_cons,
        List.count_cons, List.length_modify, inv.completed_assign hi ht]
      omega
    next_le := Nat.le_trans inv.next_le (Nat.le_of_eq (List.length_modify _ _ _).symm)
    sent := fun h => ⟨(inv.sent h).1.trans (List.length_modify _ _ _).symm, (inv.sent h).2⟩
    outstanding := by
      simp only [Job.assign, Job.unassign, popTask, hfree, List.length_cons, List.length_modify]
      omega
    ids_nodup := by
      simp only [Job.assign, Job.unassign, popTask, hfree, List.map_cons]
      rw [List.nodup_middle, List.nodup_cons, List.mem_append, not_or]
      exact hnodup
    ids_length := by
      simp only [Job.assign, Job.unassign, popTask, hfree, List.length_cons, List.length_modify]
      omega
    workers := by
      intro r hr
      rcases List.mem_append.1 hr with hold | hnew
      · exact (inv.workers r hold).imp (inv.current_assign hi hids) (inv.expired_assign hi hids ht)
      · rw [List.mem_singleton] at hnew
        subst hnew
        refine .inl ⟨i, c.startTask t, (inv.mem_assign hids).2 (.inl rfl), ?_, rfl, rfl⟩
        exact getElem?_modify_self.trans (by rw [ht, Option.map_some])
    one_current := by
      have hexp : ∀ {r}, c.Expired r →
          ((c.popTask i tasksCh).assign w ws i (c.startTask t)).Expired r :=
        inv.expired_assign hi hids ht
      refine List.pairwise_append.2 ⟨?_, List.pairwise_singleton _ _, fun r hr r' hr' hw => ?_⟩
      · exact inv.one_current.imp fun h hw => (h hw).imp hexp hexp
      · -- The id was free, so nobody else has it.
        rw [List.mem_singleton] at hr'
        subst hr'
        refine .inl (hexp ((inv.workers r hr).resolve_left ?_))
        rintro ⟨j, t', hj, -⟩
        exact hnodup.1.2 (List.mem_map.2 ⟨_, hj, hw⟩)
    finished := by
      intro hstate
      exfalso
      rcases hphase with hp | hp <;> rcases hstate with hs | hs <;>
        exact State.noConfusion (hp.symm.trans hs) }

end assign

/-- Some of the workers crash. -/
theorem crash (inv : Inv files nReduce c) {working : List AskTaskReply}
    (h : working.Sublist c.working) : Inv files nReduce { c with working := working } :=
  { inv with
    workers := fun r hr => inv.workers r (h.subset hr)
    one_current := inv.one_current.sublist h }

/-- An assigned task is taken from its worker id. -/
theorem count_unassign (inv : Inv files nReduce c) {w : ℕ} (hi : (w, i) ∈ c.workerIdTask) (j : ℕ) :
    (c.workerIdTask.map Prod.snd).count j =
      ((c.unassign w).map Prod.snd).count j + if i = j then 1 else 0 := by
  rw [((perm_cons_filter inv.keys_nodup hi).map Prod.snd).count_eq, List.map_cons, List.count_cons,
    Job.unassign]
  simp only [beq_iff_eq]

theorem length_unassign (inv : Inv files nReduce c) {w : ℕ} (hi : (w, i) ∈ c.workerIdTask) :
    c.workerIdTask.length = (c.unassign w).length + 1 := by
  rw [(perm_cons_filter inv.keys_nodup hi).length_eq, List.length_cons, Job.unassign]

theorem ids_nodup_unassign (inv : Inv files nReduce c) {w : ℕ} (hi : (w, i) ∈ c.workerIdTask) :
    ((c.workerIdCh ++ [w]) ++ (c.unassign w).map Prod.fst).Nodup := by
  have hperm : (c.workerIdCh ++ c.workerIdTask.map Prod.fst).Perm
      (c.workerIdCh ++ (w :: (c.unassign w).map Prod.fst)) :=
    ((perm_cons_filter inv.keys_nodup hi).map Prod.fst).append_left _
  rw [List.append_assoc, List.singleton_append]
  exact hperm.nodup_iff.1 inv.ids_nodup

/-- When a worker that has its id is taken out, those left with the same id have run out of time. -/
theorem expired_of_same_id (inv : Inv files nReduce c) {k : ℕ} {r : AskTaskReply}
    (hr : c.working[k]? = some r) (hnot : ¬ c.Expired r) :
    ∀ r' ∈ c.working.eraseIdx k, r'.workerId = r.workerId → c.Expired r' := by
  obtain ⟨l₁, l₂, hworking, herase⟩ := exists_eraseIdx hr
  have hone := inv.one_current
  rw [hworking, List.pairwise_append, List.pairwise_cons] at hone
  intro r' hr' hw
  rw [herase, List.mem_append] at hr'
  rcases hr' with hl | hr
  · exact (hone.2.2 r' hl r List.mem_cons_self hw).resolve_right hnot
  · exact (hone.2.1.1 r' hr hw.symm).resolve_left hnot

theorem expired_complete (k w i : ℕ) {r : AskTaskReply} (h : c.Expired r) :
    ({ c with working := c.working.eraseIdx k }.complete w i).Expired r := by
  refine ⟨h.1, fun j t' hj ht' => ?_⟩
  have hj := (mem_filter_ne.1 hj).1
  rcases getElem?_modify_cases ht' with ⟨rfl, t₀, ht₀, rfl⟩ | ⟨-, hold⟩
  · exact h.2 i t₀ hj ht₀
  · exact h.2 j t' hj hold

/-- A worker with another id keeps it. -/
theorem current_complete (k : ℕ) {w i : ℕ} {r : AskTaskReply} (hne : r.workerId ≠ w)
    (h : c.Current r) : ({ c with working := c.working.eraseIdx k }.complete w i).Current r := by
  obtain ⟨j, t, hj, ht, hbegin, hid⟩ := h
  have hmem : (r.workerId, j) ∈ c.unassign w := mem_filter_ne.2 ⟨hj, hne⟩
  by_cases hij : i = j
  · subst hij
    have hget : (c.tasks.modify i fun task => { task with status := .completed })[i]? =
        some { t with status := .completed } := by
      rw [getElem?_modify_self, ht, Option.map_some]
    exact ⟨i, _, hmem, hget, hbegin, hid⟩
  · exact ⟨j, t, hmem, (getElem?_modify_of_ne hij).trans ht, hbegin, hid⟩

/-- The worker that has an id completes its task. -/
theorem complete (inv : Inv files nReduce c) {k : ℕ} {r : AskTaskReply}
    (hr : c.working[k]? = some r) (hi : (r.workerId, i) ∈ c.workerIdTask) {t : Task}
    (ht : c.tasks[i]? = some t) (htime : r.taskBeginTime / second = t.startWorkTime / second) :
    Inv files nReduce ({ c with working := c.working.eraseIdx k }.complete r.workerId i) := by
  have hmatch := inv.current_of_match (List.mem_of_getElem? hr) hi ht htime
  have hsame := inv.expired_of_same_id hr hmatch.1
  have hlength := inv.length_unassign hi
  have hdone := inv.not_completed hi
  have hexp : ∀ {r'}, c.Expired r' →
      ({ c with working := c.working.eraseIdx k }.complete r.workerId i).Expired r' :=
    expired_complete k r.workerId i
  have hsub : (c.working.eraseIdx k).Sublist c.working := List.eraseIdx_sublist ..
  exact {
    inputFiles := inv.inputFiles
    nReduce_eq := inv.nReduce_eq
    tasks_length := (List.length_modify _ _ _).trans inv.tasks_length
    taskId := fun _ _ ht' => taskId_modify inv.taskId ht' fun _ => rfl
    places := by
      intro j
      have hplaces := inv.places j
      have hcount := inv.count_unassign hi j
      simp only [Job.places] at hplaces
      simp only [Job.places, Job.complete, List.length_modify]
      change _ + _ + _ + ((c.unassign r.workerId).map Prod.snd).count j + _ = _
      by_cases hij : i = j
      · subst hij
        have hzero := completed_eq_zero.2 hdone
        rw [completed, getElem?_modify_self, ht, Option.map_some, Option.map_some, if_pos rfl]
        rw [if_pos rfl] at hcount
        omega
      · rw [completed_modify_of_ne hij]
        rw [if_neg hij] at hcount
        omega
    next_le := Nat.le_trans inv.next_le (Nat.le_of_eq (List.length_modify _ _ _).symm)
    sent := fun h => ⟨(inv.sent h).1.trans (List.length_modify _ _ _).symm, (inv.sent h).2⟩
    outstanding := by
      have hout := inv.outstanding
      simp only [Job.complete, List.length_modify]
      change _ + _ + _ + (c.unassign r.workerId).length ≤ _
      omega
    ids_nodup := inv.ids_nodup_unassign hi
    ids_length := by
      have hids := inv.ids_length
      simp only [Job.complete, List.length_modify, List.length_append, List.length_singleton]
      change _ + _ + (c.unassign r.workerId).length = _
      omega
    workers := by
      intro r' hr'
      by_cases hw : r'.workerId = r.workerId
      · exact .inr (hexp (hsame r' hr' hw))
      · exact (inv.workers r' (hsub.subset hr')).imp (current_complete k hw) hexp
    one_current := (inv.one_current.sublist hsub).imp fun h hw => (h hw).imp hexp hexp
    finished := by
      intro hstate
      exfalso
      obtain ⟨hlt, -⟩ := List.getElem?_eq_some_iff.1 ht
      exact hdone ((inv.finished hstate).2.2 i hlt) }

/-- When every task has been sent, the channel is empty and no id is assigned, every task is
completed. -/
theorem all_completed (inv : Inv files nReduce c) (hsleep : c.catcher = .sleeping)
    (hsent : c.sendClosed = true) (hch : c.tasksCh = []) (hids : c.workerIdTask = []) :
    ∀ i < c.tasks.length, c.Completed i := by
  intro i hi
  have hplaces := inv.places i
  have hunsent : unsent c.nextTask c.tasks.length i = 0 := by
    rw [unsent, (inv.sent hsent).1, if_neg (by omega)]
  rw [Job.places, hunsent, hsleep, hch, hids, if_pos hi] at hplaces
  refine completed_eq_one.1 ?_
  simpa [Catcher.hand] using hplaces

theorem nextPhase (inv : Inv files nReduce c) (hsent : c.sendClosed = true)
    (hall : ∀ i < c.tasks.length, c.Completed i) (hs : c.nextPhase = some c') :
    Inv files nReduce c' := by
  have hlength := inv.tasks_length
  have hid := inv.taskId
  unfold Job.nextPhase at hs
  split at hs
  · rename_i hstate
    cases hs
    rw [hstate] at hlength hid
    exact { inv with
      tasks_length := hlength
      taskId := hid
      sent := nofun
      finished := fun _ => ⟨rfl, (inv.sent hsent).2, hall⟩ }
  · rename_i hstate
    cases hs
    rw [hstate] at hlength hid
    exact { inv with
      tasks_length := hlength
      taskId := hid
      sent := nofun
      finished := fun _ => ⟨rfl, (inv.sent hsent).2, hall⟩ }
  · cases hs

/-- The tasks of the new phase. The workers of the old one have run out of time. -/
theorem map2Reduce (inv : Inv files nReduce c) (hstate : c.state = .shuffle)
    (hsleep : c.catcher = .sleeping) : Inv files nReduce c.map2Reduce := by
  have hexp : ∀ r ∈ c.working, c.map2Reduce.Expired r := by
    intro r hr
    rcases inv.workers r hr with ⟨i, t, hi, ht, -⟩ | ⟨hnow, -⟩
    · obtain ⟨hlt, -⟩ := List.getElem?_eq_some_iff.1 ht
      exact absurd ((inv.finished (.inl hstate)).2.2 i hlt) (inv.not_completed hi)
    · exact ⟨hnow, nofun⟩
  have hlength : (createReduceTask c.nReduce).length = c.nReduce := by simp [createReduceTask]
  exact {
    inputFiles := inv.inputFiles
    nReduce_eq := inv.nReduce_eq
    tasks_length := hlength.trans inv.nReduce_eq
    taskId := by
      intro i t ht
      simp only [Job.map2Reduce, createReduceTask, List.getElem?_map, Option.map_eq_some_iff] at ht
      obtain ⟨j, hj, rfl⟩ := ht
      obtain ⟨-, rfl⟩ := List.getElem?_eq_some_iff.1 hj
      simp [State.taskId, Job.map2Reduce]
    places := by
      intro i
      have hidle : completed (createReduceTask c.nReduce) i = 0 := by
        simp [completed, createReduceTask]
      have hhand : c.catcher.hand = [] := by
        rw [hsleep]
        rfl
      simp only [Job.places, Job.map2Reduce, hhand, hidle, List.map_nil, List.count_nil,
        Nat.add_zero]
      exact unsent_zero _ i
    next_le := Nat.zero_le _
    sent := by
      intro hsent
      have hclosed := (inv.finished (.inl hstate)).1
      rw [show c.sendClosed = true from hsent] at hclosed
      cases hclosed
    outstanding := by
      simp [Job.map2Reduce, hsleep, Catcher.hand]
    ids_nodup := by simp [Job.map2Reduce, List.nodup_range]
    ids_length := by simp [Job.map2Reduce, hlength]
    workers := fun r hr => .inr (hexp r hr)
    one_current := inv.one_current.imp_of_mem fun hr _ _ _ => .inl (hexp _ hr)
    finished := by simp [Job.map2Reduce] }

theorem tick (inv : Inv files nReduce c) (d : ℕ) :
    Inv files nReduce { c with now := c.now + d } :=
  { inv with
    workers := fun r hr => (inv.workers r hr).imp id fun h => Expired.tick h d
    one_current := inv.one_current.imp fun h hw => (h hw).imp (Expired.tick · d) (Expired.tick · d) }

/-- A task that has run out of time is taken from its worker. -/
theorem expire (inv : Inv files nReduce c) {w : ℕ} {rest rest' : List ℕ} {t : Task}
    (hcatch : c.catcher = .ranging rest') (hi : (w, i) ∈ c.workerIdTask)
    (ht : c.tasks[i]? = some t) (htime : 10 * second < c.now - t.startWorkTime) :
    Inv files nReduce { c with
      workerIdCh := c.workerIdCh ++ [w]
      workerIdTask := c.unassign w
      catcher := .sending i rest } := by
  have hlength := inv.length_unassign hi
  have hhand : c.catcher.hand = [] := by
    rw [hcatch]
    rfl
  have hexp : ∀ {r}, c.Expired r → ({ c with
      workerIdCh := c.workerIdCh ++ [w]
      workerIdTask := c.unassign w
      catcher := .sending i rest } : Job).Expired r :=
    fun h => ⟨h.1, fun j t' hj ht' => h.2 j t' (mem_filter_ne.1 hj).1 ht'⟩
  exact { inv with
    places := by
      intro j
      have hplaces := inv.places j
      have hcount := inv.count_unassign hi j
      simp only [Job.places, hhand, List.count_nil] at hplaces
      simp only [Job.places, Catcher.hand, List.count_singleton, beq_iff_eq]
      omega
    outstanding := by
      have hout := inv.outstanding
      simp only [hhand, List.length_nil] at hout
      simp only [Catcher.hand, List.length_singleton]
      omega
    ids_nodup := inv.ids_nodup_unassign hi
    ids_length := by
      have hids := inv.ids_length
      simp only [List.length_append, List.length_singleton]
      omega
    workers := by
      intro r hr
      rcases inv.workers r hr with ⟨j, t', hj, ht', hbegin, hid⟩ | h
      · by_cases hw : r.workerId = w
        · -- The worker that had the id has run out of time.
          subst hw
          obtain rfl := value_unique inv.keys_nodup hi hj
          rw [ht, Option.some.injEq] at ht'
          subst ht'
          refine .inr ⟨?_, fun j' t' hj' => absurd rfl (mem_filter_ne.1 hj').2⟩
          simp only
          omega
        · exact .inl ⟨j, t', mem_filter_ne.2 ⟨hj, hw⟩, ht', hbegin, hid⟩
      · exact .inr (hexp h)
    one_current := inv.one_current.imp fun h hw => (h hw).imp hexp hexp }

/-- The range goes on. -/
theorem ranging (inv : Inv files nReduce c) (hhand : c.catcher.hand = []) {catcher : Catcher}
    (hhand' : catcher.hand = []) : Inv files nReduce { c with catcher := catcher } :=
  { inv with
    places := fun j => by
      have hplaces := inv.places j
      simpa only [Job.places, hhand, hhand'] using hplaces
    outstanding := by
      have hout := inv.outstanding
      simpa only [hhand, hhand'] using hout }

/-- `catchTimeout` sends the task it has in hand. -/
theorem resend (inv : Inv files nReduce c) {rest : List ℕ} (hcatch : c.catcher = .sending i rest) :
    Inv files nReduce { c with tasksCh := c.tasksCh ++ [i], catcher := .ranging rest } :=
  { inv with
    places := by
      intro j
      have hplaces := inv.places j
      simp only [Job.places, hcatch, Catcher.hand, List.count_singleton] at hplaces
      simp only [Job.places, Catcher.hand, List.count_append, List.count_singleton, List.count_nil]
      omega
    outstanding := by
      have hout := inv.outstanding
      simp only [hcatch, Catcher.hand, List.length_singleton] at hout
      simp only [Catcher.hand, List.length_append, List.length_singleton, List.length_nil]
      omega }

end Inv

theorem step_inv {a : Action} (inv : Inv files nReduce c) (hs : c.step a = some c') :
    Inv files nReduce c' := by
  cases step_cases hs with
  | start hstate =>
    have hlength := inv.tasks_length
    have hid := inv.taskId
    rw [hstate] at hlength hid
    exact { inv with tasks_length := hlength, taskId := hid, finished := by simp }
  | tick d => exact inv.tick d
  | send hlt hroom => exact inv.send hlt
  | sent hge hfirst hopen => exact inv.token hge hfirst
  | noTask hrun hnone => exact inv
  | assign hrun hphase hch hids ht => exact inv.assign hphase hch hids ht
  | drop hrun hphase hch hnone => exact absurd hnone (inv.not_dropped hch)
  | ignored hrun hr => exact inv.crash (List.eraseIdx_sublist _ _)
  | completed hrun hr hi ht htime hmore => exact inv.complete hr hi ht htime
  | finished hrun hr hi ht htime hc₁ hsent hch hids hnext =>
    have inv' := inv.complete hr hi ht htime
    rw [← hc₁] at inv'
    have hsleep : _ = Catcher.sleeping := (congrArg Job.catcher hc₁).trans hrun.2.2
    exact inv'.nextPhase hsent (inv'.all_completed hsleep hsent hch hids) hnext
  | crash k => exact inv.crash (List.eraseIdx_sublist _ _)
  | map2Reduce hrun hstate => exact inv.map2Reduce hstate hrun.2.2
  | doEnd hrun => exact { inv with }
  | rangeBegins hcatch => exact inv.ranging (congrArg Catcher.hand hcatch) rfl
  | inTime hcatch => exact inv.ranging (congrArg Catcher.hand hcatch) rfl
  | rangeEnds hcatch => exact inv.ranging (congrArg Catcher.hand hcatch) rfl
  | expire hcatch hi ht _ ht' htime =>
    -- The task is found again by its id.
    rw [inv.taskId _ _ ht, abs_taskId] at ht' ⊢
    exact inv.expire hcatch (mem_of_lookup_eq_some hi) ht' htime
  | resend hcatch hroom => exact inv.resend hcatch

end Job

end DistSys.MapReduce
