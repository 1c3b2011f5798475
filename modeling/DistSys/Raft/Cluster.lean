import DistSys.Lib.Runs
import DistSys.Raft.Append

/-!
# A cluster of servers

The state is the servers, the goroutines started by `doLeader` that have not yet called their
peer, the calls made so far, and the trace of what an observer sees. An action lets one goroutine
take one step under the lock, or the network deliver or lose something:

* `task k` lets goroutine `k` make its call. `Call` encodes the arguments after the test that the
  caller leads and without the lock: `encode k` is a part of that, the test or one more entry. An
  entry is read, and an `append` done, at one time.
* `grow s` moves the log of `s` to a larger array, as `append` may do.
* `deliver k` runs the handler of call `k` at its server, once at most and at any later time, also
  after the caller has given up or restarted.
* `receive k` lets the caller handle the reply, once at most; `lose k` makes the call fail for it,
  whether or not the request has been or will be handled. `handleInstallSnapshot` then calls again
  with the same arguments.
* `crash s` stops `s` and restarts it with `Make` from what it has saved. The goroutines of the old
  incarnation cannot send or receive any more; requests they have sent may still arrive.

Clocks are not modelled: `timeout` and `msgComing` can happen at any time.
-/

namespace DistSys.Raft

/-- A remote call: its arguments and, once the handler has run, its reply. -/
inductive Rpc (n : ℕ) (C : Type)
  | appendEntries (args : AppendEntriesArgs n C) (reply : Option AppendEntriesReply)
  | requestVote (args : RequestVoteArgs n) (reply : Option RequestVoteReply)
  | preVote (reply : Option PreVoteReply)
  | installSnapshot (args : InstallSnapshotArgs n C) (reply : Option InstallSnapshotReply)
  deriving DecidableEq, Repr

/-- A call of the incarnation `epoch` of `caller`; `waiting` until the caller's `Call` returns. -/
structure Call (n : ℕ) (C : Type) where
  caller : Fin n
  epoch : ℕ
  server : Fin n
  rpc : Rpc n C
  waiting : Bool := true
  deriving DecidableEq, Repr

/-- A goroutine started by `doLeader` in the incarnation `epoch` of `caller`, while the caller's log
was a slice of `array`. -/
structure Spawned (n : ℕ) (C : Type) where
  caller : Fin n
  epoch : ℕ
  server : Fin n
  task : Task n C
  array : ℕ
  /-- How many entries `Call` has encoded; `none` before the test that the caller leads. -/
  encoded : Option ℕ := none
  deriving DecidableEq, Repr

/-- What an observer sees. -/
inductive Event (n : ℕ) (C : Type) [Inhabited C]
  /-- `s` restarted from a snapshot up to `lastIncludedIndex`. -/
  | make (s : Fin n) (epoch : ℕ) (lastIncludedIndex : ℕ)
  /-- `Start` on `s` returned `(index, term, true)`. -/
  | start (s : Fin n) (index : ℕ) (term : ℤ) (command : C)
  /-- `sendAppendEntries` advanced the `commitIndex` of `s`; `entries` are the entries of its log
  up to that index, the first at index `base + 1`. -/
  | commit (s : Fin n) (term : ℤ) (base : ℕ) (entries : List (LogEntry C))
  /-- `s` sent `msg` on `applyCh`. -/
  | apply (s : Fin n) (epoch : ℕ) (msg : ApplyMsg C)
  deriving DecidableEq, Repr

inductive Action (n : ℕ) (C : Type)
  | start (s : Fin n) (command : C)
  | msgComing (s : Fin n)
  | timeout (s : Fin n)
  | task (k : ℕ)
  | encode (k : ℕ)
  | deliver (k : ℕ)
  | receive (k : ℕ)
  | lose (k : ℕ)
  | commitChecker (s : Fin n)
  | sendSnapshot (s : Fin n) (k : ℕ)
  | snapshot (s : Fin n) (index : ℕ) (data : Data)
  | grow (s : Fin n)
  | crash (s : Fin n)
  deriving DecidableEq, Repr

variable {n : ℕ} {C : Type} [Inhabited C]

/-- The handler of a call, run by the server that it is made to. -/
def Rpc.handle (rf : Raft n C) : Rpc n C → Option (Raft n C × Rpc n C)
  | .appendEntries args none =>
    (rf.appendEntries args).map fun r => (r.1, .appendEntries args (some r.2))
  | .requestVote args none =>
    (rf.requestVote args).map fun r => (r.1, .requestVote args (some r.2))
  | .preVote none => some (rf, .preVote (some Raft.preVote))
  | .installSnapshot args none =>
    let r := rf.installSnapshot args
    some (r.1, .installSnapshot args (some r.2))
  | _ => none

/-- What the caller does with the reply of `server`. -/
def Rpc.finish (rf : Raft n C) (server : Fin n) : Rpc n C → Option (Raft n C)
  | .appendEntries args (some reply) => rf.sendAppendEntries server args reply
  | .requestVote args (some reply) => some (rf.sendRequestVote args reply)
  | .preVote (some reply) => some (rf.sendPreVote reply)
  | .installSnapshot _ (some reply) => some (rf.handleInstallSnapshot server reply)
  | _ => none

/-- The call a goroutine of a leader makes. -/
def Task.rpc (rf : Raft n C) : Task n C → Option (Rpc n C)
  | .sendAppendEntries args => some (.appendEntries args none)
  | .handleInstallSnapshot => rf.installSnapshotArgs.map fun args => .installSnapshot args none

/-- The goroutine of an `AppendEntries` request has passed the test that the caller leads. -/
def Spawned.calling (t : Spawned n C) : Bool :=
  match t.task with
  | .sendAppendEntries _ => t.encoded.isSome
  | .handleInstallSnapshot => false

/-- The request of a goroutine whose slice shows the array of `rf.log`. Above the end of the log the
array keeps what was there, and the first `encoded` entries have been read before. -/
def AppendEntriesArgs.reread (rf : Raft n C) (encoded : ℕ) (args : AppendEntriesArgs n C) :
    AppendEntriesArgs n C :=
  { args with
    entries := args.entries.mapIdx fun j e =>
      if j < encoded then e else (rf.logAt (args.prevLogIndex + 1 + j)).getD e }

def Spawned.reread (rf : Raft n C) (t : Spawned n C) : Spawned n C :=
  match t.task with
  | .sendAppendEntries args =>
    { t with task := .sendAppendEntries (args.reread rf (t.encoded.getD 0)) }
  | .handleInstallSnapshot => t

/-- A failed `InstallSnapshot` is called again. -/
def Call.again (call : Call n C) : List (Call n C) :=
  match call.rpc with
  | .installSnapshot args _ => [{ call with rpc := .installSnapshot args none }]
  | _ => []

end Raft

/-- The example runs have three servers, or seven. With a constant for the proof, their server
numbers are the same terms in every module. -/
@[instance] theorem neZero_servers : @NeZero ℕ Zero.ofOfNat0 3 := ⟨by decide⟩

@[instance] theorem neZero_seven : @NeZero ℕ Zero.ofOfNat0 7 := ⟨by decide⟩

/-- The state of the cluster. `trace` is in the order of time. -/
structure Cluster (n : ℕ) (C : Type) [Inhabited C] where
  servers : Fin n → Raft n C
  epoch : Fin n → ℕ
  tasks : List (Raft.Spawned n C)
  calls : List (Raft.Call n C)
  trace : List (Raft.Event n C)

namespace Cluster

open Raft

variable {n : ℕ} {C : Type} [Inhabited C]

/-- Every server starts for the first time. -/
def init : Cluster n C where
  servers s := Raft.make s {}
  epoch _ := 0
  tasks := []
  calls := []
  trace := []

def set (c : Cluster n C) (s : Fin n) (rf : Raft n C) : Cluster n C :=
  { c with servers := Function.update c.servers s rf }

/-- `s` starts goroutines. -/
def spawn (c : Cluster n C) (s : Fin n) (gs : List (Fin n × Task n C)) : Cluster n C :=
  { c with
    tasks := c.tasks ++ gs.map fun g =>
      { caller := s, epoch := c.epoch s, server := g.1, task := g.2,
        array := (c.servers s).array } }

/-- `s` calls each of `servers`. -/
def call (c : Cluster n C) (s : Fin n) (servers : List (Fin n)) (rpc : Rpc n C) : Cluster n C :=
  { c with
    calls := c.calls ++
      servers.map fun i => { caller := s, epoch := c.epoch s, server := i, rpc := rpc } }

def emit (c : Cluster n C) (es : List (Event n C)) : Cluster n C :=
  { c with trace := c.trace ++ es }

/-- The event of an advance of `commitIndex`. -/
def commitEvents (s : Fin n) (rf rf' : Raft n C) : List (Event n C) :=
  if rf.commitIndex < rf'.commitIndex then
    [.commit s rf'.currentTerm rf'.lastIncludedIndex
      ((rf'.log.drop 1).take (rf'.commitIndex - rf'.lastIncludedIndex))]
  else []

/-- Call `k` is answered by its server. -/
def answerCall (c : Cluster n C) (k : ℕ) (call : Call n C) (rf : Raft n C) (rpc : Rpc n C) :
    Cluster n C :=
  { c.set call.server rf with calls := c.calls.set k { call with rpc := rpc } }

/-- The reply of call `k` is handled by its caller. -/
def finishCall (c : Cluster n C) (k : ℕ) (call : Call n C) (rf : Raft n C) : Cluster n C :=
  { c.set call.caller rf with
    calls := c.calls.set k { call with waiting := false }
    trace := c.trace ++ commitEvents call.caller (c.servers call.caller) rf }

/-- Call `k` fails for its caller. -/
def loseCall (c : Cluster n C) (k : ℕ) (call : Call n C) : Cluster n C :=
  { c with calls := c.calls.set k { call with waiting := false } ++ call.again }

/-- `s` starts again from what it has saved. -/
def restart (c : Cluster n C) (s : Fin n) : Cluster n C :=
  let rf := Raft.make s (c.servers s).persister
  ({ c.set s rf with epoch := Function.update c.epoch s (c.epoch s + 1) }).emit
    [.make s (c.epoch s + 1) rf.lastIncludedIndex]

/-- The slice of the goroutine is one of the array of the caller's log. -/
def Shares (c : Cluster n C) (t : Spawned n C) : Prop :=
  t.epoch = c.epoch t.caller ∧ t.array = (c.servers t.caller).array

instance (c : Cluster n C) (t : Spawned n C) : Decidable (c.Shares t) :=
  inferInstanceAs (Decidable (_ ∧ _))

/-- The slices show what the arrays hold. -/
def refresh (c : Cluster n C) : Cluster n C :=
  { c with
    tasks := c.tasks.map fun t => if c.Shares t then t.reread (c.servers t.caller) else t }

/-- What an action does, apart from what the slices show afterwards. -/
def act (c : Cluster n C) : Action n C → Option (Cluster n C)
  | .start s command =>
    let r := (c.servers s).start command
    some ((c.set s r.1).emit (r.2.toList.map fun i => .start s i.1 i.2 command))
  | .msgComing s =>
    if (c.servers s).state = .leader then (c.servers s).doLeader.map (c.spawn s)
    else some c
  | .timeout s =>
    let rf := c.servers s
    match rf.state with
    | .follower | .preCandidate =>
      some ((c.set s rf.beginPreVote).call s rf.otherPeers (.preVote none))
    | .candidate =>
      rf.beginElection.map fun r => (c.set s r.1).call s rf.otherPeers (.requestVote r.2 none)
    | .leader => rf.doLeader.map (c.spawn s)
  | .task k => do
    let g ← c.tasks[k]?
    let c' := { c with tasks := c.tasks.eraseIdx k }
    if g.epoch ≠ c.epoch g.caller then none
    else if (c.servers g.caller).state ≠ .leader ∧ ¬ g.calling then some c'
    else (g.task.rpc (c.servers g.caller)).map (c'.call g.caller [g.server])
  | .encode k => do
    let g ← c.tasks[k]?
    if g.epoch ≠ c.epoch g.caller then none
    else
      match g.task, g.encoded with
      | .sendAppendEntries _, some j =>
        some { c with tasks := c.tasks.set k { g with encoded := some (j + 1) } }
      | .sendAppendEntries _, none =>
        if (c.servers g.caller).state ≠ .leader then none
        else some { c with tasks := c.tasks.set k { g with encoded := some 0 } }
      | .handleInstallSnapshot, _ => none
  | .deliver k => do
    let call ← c.calls[k]?
    let r ← call.rpc.handle (c.servers call.server)
    some (c.answerCall k call r.1 r.2)
  | .receive k => do
    let call ← c.calls[k]?
    if call.waiting ∧ call.epoch = c.epoch call.caller then
      (call.rpc.finish (c.servers call.caller) call.server).map (c.finishCall k call)
    else none
  | .lose k => do
    let call ← c.calls[k]?
    if call.waiting ∧ call.epoch = c.epoch call.caller then
      some (c.loseCall k call)
    else none
  | .commitChecker s => do
    let r ← (c.servers s).commitChecker
    some ((c.set s r.1).emit (r.2.toList.map fun msg => .apply s (c.epoch s) msg))
  | .sendSnapshot s k => do
    let rf := c.servers s
    let msg ← rf.snapSenders[k]?
    some ((c.set s { rf with snapSenders := rf.snapSenders.eraseIdx k }).emit
      [.apply s (c.epoch s) msg])
  | .snapshot s index data => ((c.servers s).snapshot index data).map (c.set s)
  | .grow s => some (c.set s { c.servers s with array := (c.servers s).array + 1 })
  | .crash s => some (c.restart s)

def step (c : Cluster n C) (a : Action n C) : Option (Cluster n C) := (c.act a).map refresh

end DistSys.Cluster
