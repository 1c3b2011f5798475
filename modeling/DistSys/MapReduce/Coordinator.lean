import Mathlib.Data.Int.Order.Basic

/-!
# The MapReduce coordinator

`mr/coordinator.go`. The goroutine `run` handles one message at a time and holds the lock while it
does. The goroutine `mapTaskBegin` or `reduceTaskBegin` sends the tasks of the phase to the bounded
channel `tasksCh` and then a token to `tasksCh_sendClosed`. The goroutine `catchTimeout` takes the
lock, ranges over the assigned tasks and sends those that have run out of time to `tasksCh` again;
it keeps the lock when this channel is full.

A pointer to a task of `c.tasks` is its index. The clock counts nanoseconds. A worker that was given
a task calls `FinishTask` once, at any later time, or crashes and never does.
-/

namespace DistSys.MapReduce

inductive State where
  | wait
  | map
  | shuffle
  | reduce
  | done
  deriving DecidableEq

inductive Status where
  | idle
  | inprogress
  | completed
  deriving DecidableEq

/-- A task with its metadata. -/
structure Task where
  status : Status
  taskId : ℤ
  filename : String
  state : State
  startWorkTime : ℕ
  deriving DecidableEq

structure AskTaskReply where
  task : Task
  workerId : ℕ
  nReduce : ℕ
  mMap : ℕ
  taskBeginTime : ℕ
  deriving DecidableEq

def second : ℕ := 1000000000

/-- The index of the task with this id. -/
def abs (x : ℤ) : ℕ := if x < 0 then (-x - 1).toNat else x.toNat

/-- Where `catchTimeout` stands: asleep, before the next worker of the range, or sending a task. The
last two hold the lock. -/
inductive Catcher where
  | sleeping
  | ranging (rest : List ℕ)
  | sending (i : ℕ) (rest : List ℕ)
  deriving DecidableEq

structure Job where
  inputFiles : List String
  nReduce : ℕ
  state : State
  tasks : List Task
  tasksCh : List ℕ
  tasksCap : ℕ
  sendClosed : Bool
  /-- The map from worker ids to tasks, with one pair for each key. -/
  workerIdTask : List (ℕ × ℕ)
  workerIdCh : List ℕ
  map2ReduceCh : Bool
  doneCh : Bool
  /-- `run` has returned. -/
  ended : Bool
  /-- The next task that the distributing goroutine sends. -/
  nextTask : ℕ
  /-- The distributing goroutine has sent its token. -/
  distributed : Bool
  catcher : Catcher
  now : ℕ
  /-- The workers that have been given a task and have not called `FinishTask`. -/
  working : List AskTaskReply
  deriving DecidableEq

namespace Job

def createMapTask (inputFiles : List String) : List Task :=
  inputFiles.mapIdx fun i filename => ⟨.idle, i, filename, .map, 0⟩

def createReduceTask (nReduce : ℕ) : List Task :=
  (List.range nReduce).map fun i : ℕ => ⟨.idle, -i - 1, "", .reduce, 0⟩

def makeCoordinator (inputFiles : List String) (nReduce : ℕ) : Job where
  inputFiles := inputFiles
  nReduce := nReduce
  state := .wait
  tasks := createMapTask inputFiles
  tasksCh := []
  tasksCap := max (inputFiles.length / 4) 2
  sendClosed := false
  workerIdTask := []
  workerIdCh := List.range inputFiles.length
  map2ReduceCh := false
  doneCh := false
  ended := false
  nextTask := 0
  distributed := false
  catcher := .sleeping
  now := 0
  working := []

variable (c : Job)

def assigned (workerId : ℕ) : Option ℕ := c.workerIdTask.lookup workerId

/-- `delete(c.workerId_task, workerId)`. -/
def unassign (workerId : ℕ) : List (ℕ × ℕ) := c.workerIdTask.filter fun p => p.1 ≠ workerId

/-- `run` is at its `select`. -/
def Running : Prop := c.state ≠ .wait ∧ c.ended = false ∧ c.catcher = .sleeping

instance : Decidable c.Running := inferInstanceAs (Decidable (_ ∧ _ ∧ _))

/-- The distributing goroutine sends the next task, and the token after the last. -/
def taskBegin : Option Job :=
  if c.nextTask < c.tasks.length then
    if c.tasksCh.length < c.tasksCap then
      some { c with tasksCh := c.tasksCh ++ [c.nextTask], nextTask := c.nextTask + 1 }
    else none
  else if c.distributed = false ∧ c.sendClosed = false then
    some { c with sendClosed := true, distributed := true }
  else none

/-- The task at the head of the channel starts now. -/
def startTask (task : Task) : Task :=
  { task with startWorkTime := c.now, state := c.state, status := .inprogress }

def popTask (i : ℕ) (tasksCh : List ℕ) : Job :=
  { c with tasksCh := tasksCh, tasks := c.tasks.modify i c.startTask }

/-- The task gets a worker id, and the worker its reply. -/
def assign (workerId : ℕ) (workerIdCh : List ℕ) (i : ℕ) (task : Task) : Job :=
  { c with
    workerIdCh := workerIdCh
    workerIdTask := (workerId, i) :: c.unassign workerId
    working := c.working ++
      [⟨task, workerId, c.nReduce, c.inputFiles.length, task.startWorkTime⟩] }

/-- A worker asks for a task. It gets none outside the two phases or when the channel is empty, and
a task for which there is no worker id is dropped. -/
def doAskTask : Job :=
  if c.state = .map ∨ c.state = .reduce then
    match c.tasksCh with
    | [] => c
    | i :: tasksCh =>
      let c := c.popTask i tasksCh
      match c.workerIdCh, c.tasks[i]? with
      | workerId :: workerIdCh, some task => c.assign workerId workerIdCh i task
      | _, _ => c
  else c

/-- The phase after the last task; `none` where the source panics. -/
def nextPhase : Option Job :=
  match c.state with
  | .map => some { c with sendClosed := false, state := .shuffle, map2ReduceCh := true }
  | .reduce => some { c with sendClosed := false, state := .done, doneCh := true }
  | _ => none

/-- The task of a worker id is completed and the id is free again. -/
def complete (workerId i : ℕ) : Job :=
  { c with
    workerIdTask := c.unassign workerId
    tasks := c.tasks.modify i fun task => { task with status := .completed }
    workerIdCh := c.workerIdCh ++ [workerId] }

/-- `FinishTask` is matched by the worker id and the second in which the task began. -/
def doFinishTask (args : AskTaskReply) : Option Job :=
  match c.assigned args.workerId with
  | none => some c
  | some i =>
    match c.tasks[i]? with
    | none => some c
    | some task =>
      if task.status = .completed then some c
      else if args.taskBeginTime / second ≠ task.startWorkTime / second then some c
      else
        let c := c.complete args.workerId i
        if c.sendClosed ∧ c.tasksCh = [] ∧ c.workerIdTask = [] then c.nextPhase else some c

def map2Reduce : Job :=
  { c with
    map2ReduceCh := false
    workerIdTask := []
    workerIdCh := List.range c.nReduce
    tasksCh := []
    tasksCap := max (c.nReduce / 2) 2
    tasks := createReduceTask c.nReduce
    nextTask := 0
    distributed := false
    state := .reduce }

/-- One worker of the range of `catchTimeout`. -/
def catchNext (workerId : ℕ) (rest : List ℕ) : Option Job :=
  match (c.assigned workerId).bind fun i => c.tasks[i]? with
  | none => none
  | some task =>
    if task.status ≠ .inprogress then some { c with catcher := .ranging rest }
    else
      match c.tasks[abs task.taskId]? with
      | none => none
      | some task' =>
        if 10 * second < c.now - task'.startWorkTime then
          some { c with
            workerIdCh := c.workerIdCh ++ [workerId]
            workerIdTask := c.unassign workerId
            catcher := .sending (abs task.taskId) rest }
        else some { c with catcher := .ranging rest }

/-- `catchTimeout`: a range over the keys of the map in any order. -/
def catchTimeout (order : List ℕ) : Option Job :=
  match c.catcher with
  | .sleeping =>
    if order.isPerm (c.workerIdTask.map Prod.fst) then some { c with catcher := .ranging order }
    else none
  | .ranging [] => some { c with catcher := .sleeping }
  | .ranging (workerId :: rest) => c.catchNext workerId rest
  | .sending i rest =>
    if c.tasksCh.length < c.tasksCap then
      some { c with tasksCh := c.tasksCh ++ [i], catcher := .ranging rest }
    else none

inductive Action where
  /-- `run` begins. -/
  | start
  | tick (d : ℕ)
  | taskBegin
  | askTask
  /-- The `k`-th of the workers that have a task calls `FinishTask`. -/
  | finishTask (k : ℕ)
  /-- The `k`-th of the workers that have a task crashes. -/
  | crash (k : ℕ)
  | map2Reduce
  | doEnd
  /-- The next step of `catchTimeout`. -/
  | catchTimeout (order : List ℕ)
  deriving DecidableEq

def step : Action → Option Job
  | .start => if c.state = .wait then some { c with state := .map } else none
  | .tick d => some { c with now := c.now + d }
  | .taskBegin => c.taskBegin
  | .askTask => if c.Running then some c.doAskTask else none
  | .finishTask k =>
    if c.Running then
      match c.working[k]? with
      | some args => { c with working := c.working.eraseIdx k }.doFinishTask args
      | none => none
    else none
  | .crash k => some { c with working := c.working.eraseIdx k }
  | .map2Reduce =>
    if c.Running ∧ c.map2ReduceCh ∧ c.state = .shuffle then some c.map2Reduce else none
  | .doEnd => if c.Running ∧ c.doneCh then some { c with doneCh := false, ended := true } else none
  | .catchTimeout order => c.catchTimeout order

end Job

end DistSys.MapReduce
